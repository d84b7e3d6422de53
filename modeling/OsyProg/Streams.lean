import OsyProg.Bytes
import Mathlib.Algebra.Ring.Int.Defs
import Mathlib.Algebra.Ring.Nat
import Mathlib.Tactic.ByContra

/-!
Streams of bytes between programs. The output of a program goes into a pipe directly
(`write`), or through a buffer that is passed on when it is full and at the end
(`Output.put`, `Output.stream`): the pipe gets all bytes, but the direct ones overtake
those in the buffer (`stream_put`, `put_room`). A number is written as the bytes it
has in memory (`longBytes`), and a reader takes numbers off the stream while whole ones
are left (`readLongs`, `readLongs_flatMap`, `length_readLongs`).
-/
namespace OsyProg.Streams
open OsyProg.Bytes

/-! ### Buffered output -/

/-- What has gone into the pipe, and what is still in the buffer of the program. -/
structure Output where
  sent : Bytes
  buffered : Bytes

namespace Output

def empty : Output := { sent := [], buffered := [] }

/-- `write`, which does not go through the buffer. -/
def write (out : Output) (bytes : Bytes) : Output := { out with sent := out.sent ++ bytes }

/-- A byte goes into the buffer of the given size, which is passed on when it is full. -/
def putByte (size : ℕ) (out : Output) (c : UInt8) : Output :=
  if out.buffered.length + 1 < size then { out with buffered := out.buffered ++ [c] }
  else { sent := out.sent ++ (out.buffered ++ [c]), buffered := [] }

/-- `printf` of a text. -/
def put (size : ℕ) (out : Output) (text : Bytes) : Output := text.foldl (putByte size) out

/-- All that the program has sent when it has ended. -/
def stream (out : Output) : Bytes := out.sent ++ out.buffered

theorem sent_putByte (size : ℕ) (out : Output) (c : UInt8) : out.sent <+: (putByte size out c).sent := by
  unfold putByte
  split
  · exact List.prefix_refl _
  · exact List.prefix_append _ _

theorem sent_put (size : ℕ) (out : Output) (text : Bytes) : out.sent <+: (out.put size text).sent := by
  induction text generalizing out with
  | nil => exact List.prefix_refl _
  | cons c rest ih => exact (sent_putByte size out c).trans (ih _)

/-- The text of `put` comes after all that was put before. -/
theorem stream_put (size : ℕ) (out : Output) (text : Bytes) : (out.put size text).stream = out.stream ++ text := by
  have byte : ∀ (out : Output) c, (putByte size out c).stream = out.stream ++ [c] := by
    intro out c
    unfold putByte stream
    split <;> simp
  induction text generalizing out with
  | nil => simp [put]
  | cons c rest ih =>
    rw [put, List.foldl_cons, ← put, ih, byte, List.append_assoc, List.singleton_append]

theorem length_put (size : ℕ) (out : Output) (text : Bytes) :
    (out.put size text).stream.length = out.stream.length + text.length := by
  rw [stream_put, List.length_append]

theorem length_write (out : Output) (bytes : Bytes) : (out.write bytes).stream.length = out.stream.length + bytes.length := by
  simp only [write, stream, List.length_append]
  omega

/-- While there is room, the text stays in the buffer. -/
theorem put_room {size : ℕ} {out : Output} {text : Bytes} (room : out.buffered.length + text.length < size) :
    out.put size text = { out with buffered := out.buffered ++ text } := by
  induction text generalizing out with
  | nil => simp [put]
  | cons c rest ih =>
    rw [List.length_cons] at room
    have kept : putByte size out c = { out with buffered := out.buffered ++ [c] } := if_pos (by omega)
    have next := @ih { out with buffered := out.buffered ++ [c] } (by simp only [List.length_append, List.length_singleton]; omega)
    rw [put, List.foldl_cons, kept, ← put, next]
    simp

end Output

/-! ### Numbers in memory -/

/-- The given number of bytes of a number, the lowest first. -/
def bytesLE : ℕ → ℕ → Bytes
  | 0, _ => []
  | k + 1, value => value.toUInt8 :: bytesLE k (value / 256)

def valueLE : Bytes → ℕ
  | [] => 0
  | c :: rest => c.toNat + 256 * valueLE rest

theorem length_bytesLE (k value : ℕ) : (bytesLE k value).length = k := by
  induction k generalizing value with
  | zero => rfl
  | succ k ih => rw [bytesLE, List.length_cons, ih]

theorem valueLE_bytesLE {k value : ℕ} (small : value < 256 ^ k) : valueLE (bytesLE k value) = value := by
  induction k generalizing value with
  | zero => simp at small; exact small.symm
  | succ k ih =>
    have high : value / 256 < 256 ^ k := Nat.div_lt_of_lt_mul (by rw [← Nat.pow_succ']; exact small)
    have low : value.toUInt8.toNat = value % 256 := rfl
    rw [bytesLE, valueLE, ih high, low]
    exact Nat.mod_add_div value 256

/-- The eight bytes of a `long`. -/
def longBytes (value : ℤ) : Bytes := bytesLE 8 (value % 2 ^ 64).toNat

def longOf (bytes : Bytes) : ℤ := (valueLE bytes : ℤ).bmod (2 ^ 64)

theorem length_longBytes (value : ℤ) : (longBytes value).length = 8 := length_bytesLE 8 _

theorem longOf_longBytes {value : ℤ} (low : -2 ^ 63 ≤ value) (high : value < 2 ^ 63) : longOf (longBytes value) = value := by
  have small : (value % 2 ^ 64).toNat < 256 ^ 8 := by omega
  have read : valueLE (longBytes value) = (value % 2 ^ 64).toNat := valueLE_bytesLE small
  have range : ((value % 2 ^ 64).toNat : ℤ).bmod (2 ^ 64) = value := by
    rw [Int.bmod_def]
    split <;> omega
  unfold longOf
  rw [read]
  exact range

/-! ### Reading numbers -/

/-- Calls of `read` for eight bytes, while each of them gets eight. -/
def readLongs : Bytes → List ℤ
  | a :: b :: c :: d :: e :: f :: g :: h :: rest => longOf [a, b, c, d, e, f, g, h] :: readLongs rest
  | _ => []

theorem readLongs_append {bytes : Bytes} (whole : bytes.length = 8) (rest : Bytes) :
    readLongs (bytes ++ rest) = longOf bytes :: readLongs rest :=
  match bytes, whole with
  | [_, _, _, _, _, _, _, _], _ => rfl

theorem readLongs_short {bytes : Bytes} (short : bytes.length < 8) : readLongs bytes = [] := by
  rw [readLongs]
  rintro a b c d e f g h rest rfl
  simp only [List.length_cons] at short
  omega

theorem length_readLongs (bytes : Bytes) : (readLongs bytes).length = bytes.length / 8 := by
  induction bytes using readLongs.induct with
  | case1 a b c d e f g h rest ih =>
    simp only [readLongs, List.length_cons, ih]
    omega
  | case2 bytes other =>
    have short : bytes.length < 8 := by
      by_contra long
      match bytes, long with
      | a :: b :: c :: d :: e :: f :: g :: h :: rest, _ => exact other a b c d e f g h rest rfl
      | [], long | [_], long | [_, _], long | [_, _, _], long | [_, _, _, _], long | [_, _, _, _, _], long
      | [_, _, _, _, _, _], long | [_, _, _, _, _, _, _], long => simp at long
    rw [readLongs_short short]
    exact (Nat.div_eq_of_lt short).symm

/-- Numbers that were written one after the other are read back, and then what follows. -/
theorem readLongs_flatMap {values : List ℤ} (fit : ∀ value ∈ values, -2 ^ 63 ≤ value ∧ value < 2 ^ 63) (rest : Bytes) :
    readLongs (values.flatMap longBytes ++ rest) = values ++ readLongs rest := by
  induction values with
  | nil => rfl
  | cons value more ih =>
    obtain ⟨low, high⟩ := fit value (List.mem_cons_self ..)
    rw [List.flatMap_cons, List.append_assoc, readLongs_append (length_longBytes value), longOf_longBytes low high,
      ih fun v inside => fit v (List.mem_cons_of_mem _ inside), List.cons_append]

end OsyProg.Streams
