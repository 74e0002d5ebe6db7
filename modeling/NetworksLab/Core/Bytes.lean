import Mathlib.Algebra.Group.Int.Defs
import Mathlib.Algebra.Group.Nat.Defs
import Mathlib.Data.List.Basic

/-!
# Byte strings

`std::string` holds `char`s. A byte string here is a `List UInt8`; where the
source's `char` is converted to a wider integer its sign matters, and the
definition that converts says so (`signExtend`: `char` is signed, as on
x86-64).
-/
namespace NetworksLab

abbrev Bytes := List UInt8

/-- The bytes of an ASCII literal. -/
def ascii (s : String) : Bytes := s.toList.map fun c => c.toNat.toUInt8

def NUL : UInt8 := 0x00
def LF : UInt8 := 0x0A
def CR : UInt8 := 0x0D

/-- `static_cast<std::uint16_t>(c)` of a signed `char`. -/
def signExtend (c : UInt8) : UInt16 := c.toInt8.toInt16.toUInt16

/-- `(int)n` of a `std::size_t`: the value modulo 2^32, read as signed. -/
@[irreducible] def toInt (n : Nat) : Int := Int.bmod n (2 ^ 32)

theorem toInt_of_lt {n : Nat} (h : n < 2 ^ 31) : toInt n = n := by
  unfold toInt
  rw [Int.bmod_eq_of_le] <;> omega

theorem toInt_lt (n : Nat) : toInt n < 2 ^ 31 := by
  unfold toInt
  have := Int.bmod_lt (x := n) (m := 2 ^ 32) (by decide)
  omega

/-- What does not fit is far off. -/
theorem toInt_far {n : Nat} (h : 2 ^ 31 ≤ n) : (toInt n).toNat + 2 < n := by
  unfold toInt
  have h32 : ((2 ^ 32 : Nat) : Int) = 4294967296 := rfl
  rw [Int.bmod_def, h32]
  split <;> omega

theorem int32_min : Int32.minValue.toInt = -2147483648 := by decide

theorem int32_max : Int32.maxValue.toInt = 2147483647 := by decide

/-- As a 16-bit pattern: a byte from `0x80` on drags `0xff` into the upper byte. -/
theorem signExtend_toNat (c : UInt8) :
    (signExtend c).toNat = if c.toNat < 128 then c.toNat else c.toNat + 0xff00 := by
  have h : ∀ i : Fin 256, (signExtend (UInt8.ofNat i)).toNat =
      if i.val < 128 then i.val else i.val + 0xff00 := by decide +kernel
  have := h ⟨c.toNat, c.toNat_lt⟩
  simpa using this

end NetworksLab
