import Mathlib.Data.List.Basic

/-!
Byte strings of C: a string is the list of its bytes before the terminating zero.
-/
namespace OsyProg

/-- The bytes of a string, or of a piece of a stream. -/
abbrev Bytes := List UInt8

namespace Bytes

/-- The bytes of an ASCII text. -/
def ascii (text : List Char) : Bytes := text.map fun c => c.toNat.toUInt8

/-- `strncpy( dst, src, len )` into a buffer whose byte `len` is then set to zero:
    the string left in it. -/
def strncpy (src : Bytes) (len : ℕ) : Bytes := src.take len

/-- `%d` of `printf` for a number that is not negative. -/
def decimal (value : ℕ) : Bytes := ascii (Nat.toDigits 10 value)

end Bytes

end OsyProg
