import Cortana.Text.ByteOffsets

/-!
# Braces outside strings

Texts whose braces match when those in quoted strings are not counted, and a
scanner that finds where the first brace is closed.  The texts of JSON values
are such texts.
-/

namespace ByteText

/-- The inside of a quoted string: a quote or a backslash is escaped. -/
inductive Quotable : List Char → Prop where
  | nil : Quotable []
  | plain {c : Char} {rest : List Char} (hquote : c ≠ '"') (hescape : c ≠ '\\')
      (hrest : Quotable rest) : Quotable (c :: rest)
  | escape (c : Char) {rest : List Char} (hrest : Quotable rest) : Quotable ('\\' :: c :: rest)

/-- The braces outside strings match. -/
inductive Balanced : List Char → Prop where
  | nil : Balanced []
  | plain {c : Char} {rest : List Char} (hquote : c ≠ '"') (hopen : c ≠ '\x7b')
      (hclose : c ≠ '\x7d') (hrest : Balanced rest) : Balanced (c :: rest)
  | quoted {body rest : List Char} (hbody : Quotable body) (hrest : Balanced rest) :
      Balanced ('"' :: body ++ '"' :: rest)
  | braced {inner rest : List Char} (hinner : Balanced inner) (hrest : Balanced rest) :
      Balanced ('\x7b' :: inner ++ '\x7d' :: rest)

theorem Balanced.append {s t : List Char} (hs : Balanced s) (ht : Balanced t) :
    Balanced (s ++ t) := by
  induction hs with
  | nil => exact ht
  | plain hquote hopen hclose _ ih => exact .plain hquote hopen hclose ih
  | quoted hbody _ ih => simpa using Balanced.quoted hbody ih
  | braced hinner _ _ ih => simpa using Balanced.braced hinner ih

theorem balanced_of_plain {s : List Char} (h : ∀ c ∈ s, c ≠ '"' ∧ c ≠ '\x7b' ∧ c ≠ '\x7d') :
    Balanced s := by
  induction s with
  | nil => exact .nil
  | cons c rest ih =>
      obtain ⟨hc, hrest⟩ := List.forall_mem_cons.mp h
      exact .plain hc.1 hc.2.1 hc.2.2 (ih hrest)

/-! ## The scanner -/

/-- Where the scan stops, if some brace that is open is closed last: the state is
how many are open, whether it is in a string and after a backslash. -/
def scanBraces : (depth : ℕ) → (inString escaped : Bool) → (offset : ℕ) → List Char → Option ℕ
  | _, _, _, _, [] => none
  | depth, true, true, offset, c :: rest => scanBraces depth true false (offset + c.utf8Size) rest
  | depth, true, false, offset, c :: rest =>
      if c = '\\' then scanBraces depth true true (offset + c.utf8Size) rest
      else if c = '"' then scanBraces depth false false (offset + c.utf8Size) rest
      else scanBraces depth true false (offset + c.utf8Size) rest
  | depth, false, escaped, offset, c :: rest =>
      if c = '"' then scanBraces depth true escaped (offset + c.utf8Size) rest
      else if c = '\x7b' then scanBraces (depth + 1) false escaped (offset + c.utf8Size) rest
      else if c = '\x7d' then
        if depth = 0 then none
        else if depth - 1 = 0 then some (offset + c.utf8Size)
        else scanBraces (depth - 1) false escaped (offset + c.utf8Size) rest
      else scanBraces depth false escaped (offset + c.utf8Size) rest

theorem scanBraces_quotable {body : List Char} (h : Quotable body) (depth offset : ℕ)
    (rest : List Char) :
    scanBraces depth true false offset (body ++ '"' :: rest) =
      scanBraces depth false false (offset + byteLen body + 1) rest := by
  induction h generalizing offset with
  | nil => simp [scanBraces, Char.utf8Size]
  | plain hquote hescape _ ih =>
      rw [List.cons_append, scanBraces, if_neg hescape, if_neg hquote, ih, byteLen_cons, ← add_assoc offset]
  | escape c _ ih =>
      have hbackslash : '\\'.utf8Size = 1 := rfl
      rw [List.cons_append, List.cons_append, scanBraces, if_pos rfl, scanBraces, ih, byteLen_cons,
        byteLen_cons, hbackslash]
      congr 1
      omega

/-- Balanced text is passed by. -/
theorem scanBraces_balanced {s : List Char} (h : Balanced s) (depth offset : ℕ)
    (rest : List Char) :
    scanBraces (depth + 1) false false offset (s ++ rest) =
      scanBraces (depth + 1) false false (offset + byteLen s) rest := by
  have hquote : '"'.utf8Size = 1 := rfl
  have hopen : '\x7b'.utf8Size = 1 := rfl
  have hclose : '\x7d'.utf8Size = 1 := rfl
  induction h generalizing depth offset rest with
  | nil => rfl
  | plain hquote hopen hclose _ ih =>
      rw [List.cons_append, scanBraces, if_neg hquote, if_neg hopen, if_neg hclose, ih, byteLen_cons,
        add_assoc]
  | quoted hbody _ ih =>
      rw [List.cons_append, List.cons_append, List.append_assoc, List.cons_append, scanBraces,
        if_pos rfl, scanBraces_quotable hbody, ih, byteLen_cons, byteLen_append, byteLen_cons, hquote]
      congr 1
      omega
  | braced _ _ ihinner ih =>
      rw [List.cons_append, List.cons_append, List.append_assoc, List.cons_append, scanBraces,
        if_neg (by decide), if_pos rfl, ihinner, scanBraces, if_neg (by decide), if_neg (by decide),
        if_pos rfl, if_neg (by omega), if_neg (by omega), Nat.add_sub_cancel, ih, byteLen_cons, byteLen_append, byteLen_cons, hopen, hclose]
      congr 1
      omega

/-- A text that closes so many braces, the last one at its end. -/
inductive Closes : ℕ → List Char → Prop where
  | last {inner : List Char} (hinner : Balanced inner) : Closes 1 (inner ++ ['\x7d'])
  | next {depth : ℕ} {inner rest : List Char} (hinner : Balanced inner) (hrest : Closes depth rest) :
      Closes (depth + 1) (inner ++ '\x7d' :: rest)

/-- More balanced text may stand in front. -/
theorem Closes.append {depth : ℕ} {s t : List Char} (hs : Balanced s) (ht : Closes depth t) :
    Closes depth (s ++ t) := by
  cases ht with
  | last hinner =>
      rw [← List.append_assoc]
      exact .last (hs.append hinner)
  | next hinner hrest =>
      rw [← List.append_assoc]
      exact .next (hs.append hinner) hrest

/-- A text that closes a brace and more is what stands in that brace and the rest. -/
theorem Closes.enclose {depth : ℕ} {t : List Char} (h : Closes (depth + 2) t) :
    Closes (depth + 1) ('\x7b' :: t) := by
  cases h with
  | next hinner hrest =>
      rename_i inner rest
      have hgroup : Balanced ('\x7b' :: inner ++ '\x7d' :: []) := .braced hinner .nil
      simpa using Closes.append hgroup hrest

theorem closes_one {t : List Char} (h : Closes 1 t) :
    ∃ inner, Balanced inner ∧ t = inner ++ ['\x7d'] := by
  cases h with
  | last hinner => exact ⟨_, hinner, rfl⟩
  | next _ hrest => cases hrest

/-- In a string, the scan goes on after the quote that ends it. -/
theorem quotable_of_scanBraces {depth offset stop : ℕ} {escaped : Bool} {text : List Char}
    (h : scanBraces depth true escaped offset text = some stop) :
    ∃ body rest, Quotable (bif escaped then '\\' :: body else body) ∧ text = body ++ '"' :: rest ∧
      scanBraces depth false false (offset + byteLen body + 1) rest = some stop := by
  induction text generalizing offset escaped with
  | nil => cases escaped <;> simp [scanBraces] at h
  | cons c rest ih =>
      cases escaped with
      | true =>
          rw [scanBraces] at h
          obtain ⟨body, rest', hbody, rfl, hscan⟩ := ih h
          refine ⟨c :: body, rest', .escape c hbody, rfl, ?_⟩
          rwa [byteLen_cons, ← add_assoc offset]
      | false =>
          rw [scanBraces] at h
          split at h
          next hescape =>
            subst hescape
            obtain ⟨body, rest', hbody, rfl, hscan⟩ := ih h
            refine ⟨'\\' :: body, rest', hbody, rfl, ?_⟩
            rwa [byteLen_cons, ← add_assoc offset]
          next hescape =>
            split at h
            next hquote =>
              subst hquote
              exact ⟨[], rest, .nil, rfl, h⟩
            next hquote =>
              obtain ⟨body, rest', hbody, rfl, hscan⟩ := ih h
              refine ⟨c :: body, rest', .plain hquote hescape hbody, rfl, ?_⟩
              rwa [byteLen_cons, ← add_assoc offset]

/-- Where the scan stops, the open braces are closed. -/
theorem closes_of_scanBraces {depth offset stop : ℕ} {text : List Char}
    (h : scanBraces (depth + 1) false false offset text = some stop) :
    ∃ s rest, Closes (depth + 1) s ∧ text = s ++ rest ∧ stop = offset + byteLen s := by
  induction hlength : text.length using Nat.strong_induction_on generalizing depth offset text with
  | h length ih =>
      subst hlength
      cases text with
      | nil => simp [scanBraces] at h
      | cons c rest =>
          rw [scanBraces] at h
          split at h
          next hquote =>
            subst hquote
            obtain ⟨body, rest', hbody, rfl, hscan⟩ := quotable_of_scanBraces h
            obtain ⟨s, last, hs, rfl, rfl⟩ := ih _ (by simp; omega) hscan rfl
            have hstring : Balanced ('"' :: body ++ '"' :: []) := .quoted hbody .nil
            refine ⟨_, last, Closes.append hstring hs, by simp, ?_⟩
            have hsize : '"'.utf8Size = 1 := rfl
            simp only [byteLen_cons, byteLen_append, byteLen_nil, hsize, List.cons_append]
            omega
          next hquote =>
            split at h
            next hopen =>
              subst hopen
              obtain ⟨s, last, hs, rfl, rfl⟩ := ih _ (Nat.lt_succ_self _) h rfl
              refine ⟨_, last, hs.enclose, rfl, ?_⟩
              rw [byteLen_cons, add_assoc]
            next hopen =>
              split at h
              next hclose =>
                subst hclose
                rw [if_neg (Nat.succ_ne_zero depth), Nat.add_sub_cancel] at h
                cases depth with
                | zero =>
                    refine ⟨['\x7d'], rest, Closes.last .nil, rfl, ?_⟩
                    simpa using (Option.some.inj h).symm
                | succ depth =>
                    rw [if_neg (Nat.succ_ne_zero depth)] at h
                    obtain ⟨s, last, hs, rfl, rfl⟩ := ih _ (Nat.lt_succ_self _) h rfl
                    refine ⟨_, last, Closes.next Balanced.nil hs, rfl, ?_⟩
                    rw [List.nil_append, byteLen_cons, add_assoc]
              next hclose =>
                obtain ⟨s, last, hs, rfl, rfl⟩ := ih _ (Nat.lt_succ_self _) h rfl
                refine ⟨_, last, Closes.append (.plain hquote hopen hclose .nil) hs, rfl, ?_⟩
                rw [List.cons_append, List.nil_append, byteLen_cons, add_assoc]

/-- From the first brace, the scan stops where that brace is closed. -/
theorem scanBraces_open_iff {text : List Char} {stop : ℕ} :
    scanBraces 0 false false 0 ('\x7b' :: text) = some stop ↔
      ∃ inner rest, Balanced inner ∧ text = inner ++ '\x7d' :: rest ∧ stop = byteLen inner + 2 := by
  have hopen : '\x7b'.utf8Size = 1 := rfl
  have hclose : '\x7d'.utf8Size = 1 := rfl
  rw [scanBraces, if_neg (by decide), if_pos rfl, hopen, Nat.zero_add]
  constructor
  · intro h
    obtain ⟨s, rest, hs, rfl, rfl⟩ := @closes_of_scanBraces 0 _ _ _ h
    obtain ⟨inner, hinner, rfl⟩ := closes_one hs
    refine ⟨inner, rest, hinner, by simp, ?_⟩
    rw [byteLen_append, byteLen_cons, byteLen_nil, hclose]
    omega
  · rintro ⟨inner, rest, hinner, rfl, rfl⟩
    rw [scanBraces_balanced hinner 0, scanBraces, if_neg (by decide), if_neg (by decide), if_pos rfl,
      if_neg Nat.one_ne_zero, if_pos rfl, hclose, Option.some.injEq]
    omega

/-! ## JSON -/

/-- White space between the parts of a JSON text. -/
def Blank (s : List Char) : Prop := ∀ c ∈ s, c = ' ' ∨ c = '\t' ∨ c = '\n' ∨ c = '\x0d'

/-- The letters, digits and signs of numbers and of the names of constants. -/
def ScalarText (s : List Char) : Prop :=
  s ≠ [] ∧ ∀ c ∈ s, c.isAlphanum = true ∨ c = '+' ∨ c = '-' ∨ c = '.'

/-- What a text is a part of. -/
inductive JsonPart where
  | value
  | elements
  | members

/-- The grammar of JSON, where a scalar may be any text of its characters and a
string any text whose quotes and backslashes are escaped. -/
inductive JsonText : JsonPart → List Char → Prop where
  | scalar {s : List Char} (hs : ScalarText s) : JsonText .value s
  | string {body : List Char} (hbody : Quotable body) : JsonText .value ('"' :: body ++ ['"'])
  | emptyArray {s : List Char} (hs : Blank s) : JsonText .value ('[' :: s ++ [']'])
  | array {s : List Char} (hs : JsonText .elements s) : JsonText .value ('[' :: s ++ [']'])
  | emptyObject {s : List Char} (hs : Blank s) : JsonText .value ('\x7b' :: s ++ ['\x7d'])
  | object {s : List Char} (hs : JsonText .members s) : JsonText .value ('\x7b' :: s ++ ['\x7d'])
  | element {l s r : List Char} (hl : Blank l) (hs : JsonText .value s) (hr : Blank r) :
      JsonText .elements (l ++ s ++ r)
  | moreElements {s t : List Char} (hs : JsonText .elements s) (ht : JsonText .elements t) :
      JsonText .elements (s ++ ',' :: t)
  | member {l name m n s r : List Char} (hl : Blank l) (hname : Quotable name) (hm : Blank m)
      (hn : Blank n) (hs : JsonText .value s) (hr : Blank r) :
      JsonText .members (l ++ '"' :: name ++ '"' :: m ++ ':' :: n ++ s ++ r)
  | moreMembers {s t : List Char} (hs : JsonText .members s) (ht : JsonText .members t) :
      JsonText .members (s ++ ',' :: t)

/-- The text of a JSON object. -/
def JsonObject (s : List Char) : Prop :=
  ∃ inner, s = '\x7b' :: inner ++ ['\x7d'] ∧ (Blank inner ∨ JsonText .members inner)

theorem Blank.balanced {s : List Char} (h : Blank s) : Balanced s := by
  refine balanced_of_plain fun c hc ↦ ?_
  rcases h c hc with rfl | rfl | rfl | rfl <;> decide

theorem ScalarText.balanced {s : List Char} (h : ScalarText s) : Balanced s := by
  refine balanced_of_plain fun c hc ↦ ?_
  rcases h.2 c hc with halphanum | rfl | rfl | rfl
  · refine ⟨?_, ?_, ?_⟩ <;> rintro rfl <;> exact absurd halphanum (by decide)
  all_goals decide

/-- One more character between two parts. -/
theorem Balanced.join {s t : List Char} {c : Char} (hs : Balanced s)
    (hc : c ≠ '"' ∧ c ≠ '\x7b' ∧ c ≠ '\x7d') (ht : Balanced t) : Balanced (s ++ c :: t) :=
  hs.append (.plain hc.1 hc.2.1 hc.2.2 ht)

/-- The braces of a JSON text match outside its strings. -/
theorem JsonText.balanced {part : JsonPart} {s : List Char} (h : JsonText part s) :
    Balanced s := by
  induction h with
  | scalar hs => exact hs.balanced
  | string hbody => exact .quoted hbody .nil
  | emptyArray hs => exact .join (.join .nil (by decide) hs.balanced) (by decide) .nil
  | array _ ih => exact .join (.join .nil (by decide) ih) (by decide) .nil
  | emptyObject hs => exact .braced hs.balanced .nil
  | object _ ih => exact .braced ih .nil
  | element hl _ hr ih => exact (hl.balanced.append ih).append hr.balanced
  | moreElements _ _ ihs iht => exact ihs.join (by decide) iht
  | member hl hname hm hn _ hr ih =>
      have hkey := hl.balanced.append (Balanced.quoted hname hm.balanced)
      have hvalue := ((hkey.join (c := ':') (by decide) hn.balanced).append ih).append hr.balanced
      simpa using hvalue
  | moreMembers _ _ ihs iht => exact ihs.join (by decide) iht

theorem JsonObject.balanced {s : List Char} (h : JsonObject s) :
    ∃ inner, Balanced inner ∧ s = '\x7b' :: inner ++ ['\x7d'] := by
  obtain ⟨inner, rfl, hblank | hmembers⟩ := h
  · exact ⟨inner, hblank.balanced, rfl⟩
  · exact ⟨inner, hmembers.balanced, rfl⟩

end ByteText
