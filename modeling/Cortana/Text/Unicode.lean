import Cortana.Text.Search

/-!
# Tables of characters

What the string type takes from the Unicode tables, and the splitting of a text
into words by them.
-/

namespace ByteText

/-- `char::is_alphanumeric` and `str::to_lowercase`. -/
structure Unicode where
  isAlphanumeric : Char → Bool
  toLowercase : List Char → List Char

/-- The tables as they are for ASCII. -/
def Unicode.ascii : Unicode := ⟨Char.isAlphanum, toAsciiLowercase⟩

/-- `split` at what is neither alphanumeric nor an underscore. -/
def Unicode.words (unicode : Unicode) (s : List Char) : List (List Char) :=
  s.splitOnP fun c ↦ !unicode.isAlphanumeric c && c != '_'

end ByteText
