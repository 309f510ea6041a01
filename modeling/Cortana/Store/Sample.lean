import Cortana.Store.Rows

/-!
# A codec that runs

JSON texts, ACL labels and instants as far as evaluating the store needs them.
Hashes are the hashed texts, so that the codec is faithful.
-/

namespace Cortana

/-- A character in a JSON string. -/
def escapeChar (c : Char) : List Char :=
  if c = '"' then ['\\', '"']
  else if c = '\\' then ['\\', '\\']
  else if c.toNat < 32 then
    ['\\', 'u', '0', '0', Nat.digitChar (c.toNat / 16), Nat.digitChar (c.toNat % 16)]
  else [c]

def quoted (text : String) : List Char := '"' :: text.toList.flatMap escapeChar ++ ['"']

/-- The text of a JSON value; a real number by its bits. -/
def Value.compact : Value → List Char
  | .null => "null".toList
  | .bool flag => (toString flag).toList
  | .integer n => (toString n).toList
  | .real bits => Nat.toDigits 10 bits.toNat
  | .string text => quoted text
  | .array items => '[' :: compactItems items
  | .object members => '\x7b' :: compactMembers members
where
  compactItems : List Value → List Char
    | [] => [']']
    | [item] => item.compact ++ [']']
    | item :: rest => item.compact ++ ',' :: compactItems rest
  compactMembers : List (String × Value) → List Char
    | [] => ['\x7d']
    | [(name, item)] => quoted name ++ ':' :: item.compact ++ ['\x7d']
    | (name, item) :: rest => quoted name ++ ':' :: item.compact ++ ',' :: compactMembers rest

/-- Numbers of digits, which order instants of one format. -/
def digitsOf (text : String) : ℤ :=
  (Nat.ofDigitChars 10 (text.toList.filter Char.isDigit) 0 : ℕ)

/-- The value of a hexadecimal digit. -/
def hexValue (c : Char) : ℕ :=
  if c.isDigit then c.toNat - '0'.toNat else c.toNat - 'a'.toNat + 10

/-- Read a JSON string after its opening quote, up to its closing one. -/
def readQuoted : List Char → Option (List Char × List Char)
  | [] => none
  | '"' :: rest => some ([], rest)
  | '\\' :: '"' :: rest => (readQuoted rest).map fun r ↦ ('"' :: r.1, r.2)
  | '\\' :: '\\' :: rest => (readQuoted rest).map fun r ↦ ('\\' :: r.1, r.2)
  | '\\' :: 'u' :: '0' :: '0' :: a :: b :: rest =>
      (readQuoted rest).map fun r ↦ (Char.ofNat (16 * hexValue a + hexValue b) :: r.1, r.2)
  | c :: rest => (readQuoted rest).map fun r ↦ (c :: r.1, r.2)

/-- Read the strings of a JSON array after its opening bracket, at most as many
as the fuel. -/
def readLabels : ℕ → List Char → Option (List String)
  | 0, _ => none
  | _ + 1, [']'] => some []
  | fuel + 1, '"' :: text =>
      match readQuoted text with
      | some (label, [']']) => some [String.ofList label]
      | some (label, ',' :: rest) => (readLabels fuel rest).map (String.ofList label :: ·)
      | _ => none
  | _ + 1, _ => none

/-- Read a JSON array of strings. -/
def readLabelArray (text : String) : Except String (List String) :=
  match text.toList with
  | '[' :: rest =>
      match readLabels (rest.length + 1) rest with
      | some labels => .ok labels
      | none => .error "invalid memory ACL"
  | _ => .error "invalid memory ACL"

/-- The seconds of an instant are below 60. -/
def plainSeconds (text : String) : Bool := (text.toList.drop 17).take 2 ≠ ['6', '0']

/-- A codec to evaluate the store with.  Texts are their own hashes, and SQLite
does not read leap seconds. -/
def Codec.sample : Codec where
  sha256 := String.ofList
  jsonText value := String.ofList value.compact
  parseAcl := readLabelArray
  normalizeInstant := .ok
  instant text := some (digitsOf text)
  julianAfter a b := plainSeconds a && plainSeconds b && decide (digitsOf b < digitsOf a)
  parseOutput _ := "\x7b\x7d"
  outputCurrent _ _ := true

theorem hexDigits_injective : ∀ m n : Fin 32,
    [Nat.digitChar (m / 16), Nat.digitChar (m % 16)] =
      [Nat.digitChar (n / 16), Nat.digitChar (n % 16)] → m = n := by
  decide

/-- Escaped characters can be told apart in front of any text. -/
theorem escapeChar_append_inj {c d : Char} {x y : List Char}
    (h : escapeChar c ++ x = escapeChar d ++ y) : c = d ∧ x = y := by
  have hcontrol : c.toNat < 32 → d.toNat < 32 →
      Nat.digitChar (c.toNat / 16) = Nat.digitChar (d.toNat / 16) →
        Nat.digitChar (c.toNat % 16) = Nat.digitChar (d.toNat % 16) → c = d := by
    intro hc hd hhigh hlow
    have heq := hexDigits_injective ⟨c.toNat, hc⟩ ⟨d.toNat, hd⟩ (by simp [hhigh, hlow])
    exact Char.toNat_inj.mp (Fin.mk.inj heq)
  simp only [escapeChar] at h
  split_ifs at h <;> grind

theorem escaped_injective {s t : List Char}
    (h : s.flatMap escapeChar ++ ['"'] = t.flatMap escapeChar ++ ['"']) : s = t := by
  have hclosed : ∀ (c : Char) (x : List Char), escapeChar c ++ x ≠ ['"'] := by
    intro c x
    simp only [escapeChar]
    split_ifs <;> grind
  induction s generalizing t with
  | nil =>
      cases t with
      | nil => rfl
      | cons d t => exact absurd h.symm (by simpa using hclosed d _)
  | cons c s ih =>
      cases t with
      | nil => exact absurd h (by simpa using hclosed c _)
      | cons d t =>
          rw [List.flatMap_cons, List.flatMap_cons, List.append_assoc, List.append_assoc] at h
          obtain ⟨rfl, hrest⟩ := escapeChar_append_inj h
          rw [ih hrest]

theorem separator_notMem_escapeChar (c : Char) : '\x1f' ∉ escapeChar c := by
  have hdigits : ∀ n : Fin 32, '\x1f' ∉ [Nat.digitChar (n / 16), Nat.digitChar (n % 16)] := by
    decide
  simp only [escapeChar]
  split_ifs with _ _ hlow
  · decide
  · decide
  · have := hdigits ⟨c.toNat, hlow⟩
    grind
  · rintro hc
    obtain rfl : '\x1f' = c := by simpa using hc
    exact absurd hlow (by decide)

/-- The text of a number starts with no other character than a digit. -/
theorem toDigits_ne_cons {n : ℕ} {c : Char} {rest : List Char} (hc : c.isDigit = false) :
    Nat.toDigits 10 n ≠ c :: rest := by
  intro heq
  have hdigit := Nat.isDigit_of_mem_toDigits (b := 10) (n := n) (c := c) (by decide) (by decide)
    (heq ▸ List.mem_cons_self)
  rw [hc] at hdigit
  cases hdigit

theorem Value.compact_injective {v w : Value} (hv : v.Scalar) (hw : w.Scalar)
    (h : v.compact = w.compact) : v = w := by
  match v, w with
  | .null, .null => rfl
  | .null, .string t => simp [Value.compact, quoted] at h
  | .null, .real b => exact absurd h.symm (toDigits_ne_cons (by decide))
  | .string s, .null => simp [Value.compact, quoted] at h
  | .string s, .string t =>
      have hbody := (List.cons.inj h).2
      rw [String.toList_injective (escaped_injective hbody)]
  | .string s, .real b => exact absurd h.symm (toDigits_ne_cons (by decide))
  | .real b, .null => exact absurd h (toDigits_ne_cons (by decide))
  | .real b, .string t => exact absurd h (toDigits_ne_cons (by decide))
  | .real b, .real b' =>
      have hvalue := congrArg (fun l ↦ Nat.ofDigitChars 10 l 0) h
      simp only [Value.compact, Nat.ofDigitChars_ten_toDigits] at hvalue
      rw [UInt64.toNat_inj.mp hvalue]

theorem Codec.sample_sha256_injective : Function.Injective Codec.sample.sha256 :=
  fun _ _ h ↦ String.ofList_injective h

theorem Codec.sample_faithfulOn (rows : Set ObjectRow) : Codec.sample.FaithfulOn rows where
  sha256 := Codec.sample_sha256_injective.injOn
  jsonText v hv w hw h := by
    obtain ⟨row, -, hv⟩ := hv
    obtain ⟨row', -, hw⟩ := hw
    exact Value.compact_injective (row.scalar_columns v hv) (row'.scalar_columns w hw)
      (String.ofList_injective h)
  separator row _ v hv := by
    have hscalar := row.scalar_columns v hv
    clear hv
    rw [Codec.sample, String.toList_ofList]
    match v with
    | .null => decide
    | .string s =>
        simp only [Value.compact, quoted, List.mem_append, List.mem_cons, List.mem_flatMap]
        rintro ((h | ⟨c, -, hc⟩) | h)
        · exact absurd h (by decide)
        · exact separator_notMem_escapeChar c hc
        · simp at h
    | .real b =>
        intro h
        exact absurd (Nat.isDigit_of_mem_toDigits (by decide) (by decide) h) (by decide)

theorem readQuoted_escaped (text rest : List Char) :
    readQuoted (text.flatMap escapeChar ++ '"' :: rest) = some (text, rest) := by
  have hhex : ∀ n : Fin 32, 16 * hexValue (Nat.digitChar (n / 16)) +
      hexValue (Nat.digitChar (n % 16)) = n := by
    decide
  induction text with
  | nil => rfl
  | cons c text ih =>
      rw [List.flatMap_cons, List.append_assoc, escapeChar]
      split_ifs with hquote hbackslash hcontrol
      · subst hquote
        simp [readQuoted, ih]
      · subst hbackslash
        simp [readQuoted, ih]
      · have hvalue := hhex ⟨c.toNat, hcontrol⟩
        simp only at hvalue
        simp [readQuoted, ih, hvalue]
      · simp [readQuoted, ih, hbackslash]

theorem readLabels_compact (labels : List String) {fuel : ℕ} (hfuel : labels.length < fuel) :
    readLabels fuel (Value.compact.compactItems (labels.map .string)) = some labels := by
  induction labels generalizing fuel with
  | nil =>
      obtain ⟨n, rfl⟩ := Nat.exists_eq_add_one_of_ne_zero (Nat.ne_of_gt hfuel)
      rfl
  | cons label rest ih =>
      obtain ⟨n, rfl⟩ := Nat.exists_eq_add_one_of_ne_zero (Nat.ne_zero_of_lt hfuel)
      rw [List.length_cons, Nat.add_lt_add_iff_right] at hfuel
      cases rest with
      | nil =>
          simp [Value.compact.compactItems, Value.compact, quoted, readLabels, readQuoted_escaped]
      | cons next rest =>
          have hrest := ih hfuel
          simp only [List.map_cons] at hrest ⊢
          simp [Value.compact.compactItems, Value.compact, quoted, readLabels, readQuoted_escaped,
            hrest]

theorem length_compactItems (items : List Value) :
    items.length < (Value.compact.compactItems items).length + 1 := by
  induction items with
  | nil => simp
  | cons item rest ih =>
      cases rest with
      | nil => simp [Value.compact.compactItems]
      | cons next rest =>
          simp only [Value.compact.compactItems, List.length_append, List.length_cons] at ih ⊢
          omega

theorem Codec.sample_readsLabels : Codec.sample.ReadsLabels := by
  intro labels
  have hfuel := length_compactItems (labels.map .string)
  rw [List.length_map] at hfuel
  simp only [Codec.sample, readLabelArray, String.toList_ofList, Value.compact]
  rw [readLabels_compact labels hfuel]

end Cortana
