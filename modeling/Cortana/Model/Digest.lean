import Mathlib.Data.List.Basic
import Mathlib.Tactic

/-!
# Bytes and digests

The UTF-8 bytes of a text, and SHA-256 digests written as hex digits.
-/

namespace Cortana

/-- `str::as_bytes`. -/
@[grind =] def bytes (text : String) : List UInt8 := text.toByteArray.data.toList

theorem bytes_inj {s t : String} : bytes s = bytes t ↔ s = t := by
  constructor
  · intro h
    apply String.toByteArray_inj.mp
    exact ByteArray.ext (Array.toList_inj.mp h)
  · rintro rfl
    rfl

/-- SHA-256, of which the digest length is used. -/
structure Sha256 where
  digest : List UInt8 → List UInt8
  length_digest : ∀ value, (digest value).length = 32

/-- The first bytes of a text in the place of its digest. -/
def Sha256.sample : Sha256 where
  digest value := (value ++ List.replicate 32 0).take 32
  length_digest value := by simp

/-- A property of bytes is checked on all of them. -/
theorem forall_byte {p : UInt8 → Prop} (h : ∀ n : Fin 256, p (.ofFin n)) (b : UInt8) : p b :=
  h b.toFin

def lowerHex (n : UInt8) : UInt8 := if n < 10 then 48 + n else 87 + n

/-- `hex_digest`. -/
def hexDigest (sha : Sha256) (value : List UInt8) : List UInt8 :=
  (sha.digest value).flatMap fun b ↦ [lowerHex (b / 16), lowerHex (b % 16)]

/-- The digest as text. -/
def hexText (sha : Sha256) (value : List UInt8) : String :=
  String.ofList ((hexDigest sha value).map fun b ↦ Char.ofNat b.toNat)

end Cortana
