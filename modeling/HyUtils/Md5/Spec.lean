import HyUtils.Foundation.LittleEndian
import Mathlib.Analysis.SpecialFunctions.Trigonometric.Basic

/-!
# The MD5 message digest

The digest as it is specified: the message is padded to whole blocks of sixteen 32-bit words, and
each block updates four registers in four rounds of sixteen operations. An operation
`[abcd k s i]` sets register `a` to `b + ((a + f(b, c, d) + X[k] + T[i]) <<< s)`, where `f` is the
function of the round, `X[k]` is a word of the block, `T[i]` is the integer part of
`4294967296 * |sin i|`, and `<<< s` rotates left by `s` bits. Bytes are in little-endian order.

## Main definitions

* `padded`: the padded message
* `Operation`, `round1`, `round2`, `round3`, `round4`: the operations of the four rounds
* `sineTable`: the constants `T[i]`
* `compress`: what a block does to the registers
* `md5`: the digest of a message
-/

namespace HyUtils.Md5

open LittleEndian

/-! ## Padding -/

theorem exists_padZeros (n : ℕ) : ∃ z, (n + 1 + z) % 64 = 56 :=
  ⟨(119 - n % 64) % 64, by omega⟩

/-- The least number of zero bytes that brings the length to 56 modulo 64. -/
def padZeros (n : ℕ) : ℕ := Nat.find (exists_padZeros n)

/-- The message, the byte `0x80`, zero bytes, and the length in bits as a 64-bit number. -/
def padded (message : List UInt8) : List UInt8 :=
  message ++ [0x80] ++ List.replicate (padZeros message.length) 0 ++ leBytes 8 (8 * message.length)

/-- The blocks of 64 bytes. -/
def blocks (bytes : List UInt8) : List (List UInt8) :=
  (List.range (bytes.length / 64)).map fun i => (bytes.drop (64 * i)).take 64

/-- The word `X[k]` of a block. -/
def word (block : List UInt8) (k : ℕ) : UInt32 :=
  UInt32.ofNat (ofLeBytes ((block.drop (4 * k)).take 4))

/-! ## Functions -/

/-- The function of round 1. -/
def F (x y z : UInt32) : UInt32 := (x &&& y) ||| (~~~x &&& z)

/-- The function of round 2. -/
def G (x y z : UInt32) : UInt32 := (x &&& z) ||| (y &&& ~~~z)

/-- The function of round 3. -/
def H (x y z : UInt32) : UInt32 := x ^^^ y ^^^ z

/-- The function of round 4. -/
def I (x y z : UInt32) : UInt32 := y ^^^ (x ||| ~~~z)

/-- Rotation to the left. -/
def rotl (x : UInt32) (s : ℕ) : UInt32 := ⟨x.toBitVec.rotateLeft s⟩

/-- The constant `T[i]`. -/
noncomputable def sineTable (i : ℕ) : UInt32 :=
  UInt32.ofNat ⌊((4294967296 : ℕ) : ℝ) * |Real.sin i|⌋₊

/-! ## Operations -/

/-- The four registers. -/
inductive Register
  | A
  | B
  | C
  | D
  deriving DecidableEq

/-- An operation `[abcd k s i]`. -/
structure Operation where
  a : Register
  b : Register
  c : Register
  d : Register
  k : ℕ
  s : ℕ
  i : ℕ
  deriving DecidableEq

/-- `[ABCD k s i]`. -/
def abcd (k s i : ℕ) : Operation := ⟨.A, .B, .C, .D, k, s, i⟩

/-- `[DABC k s i]`. -/
def dabc (k s i : ℕ) : Operation := ⟨.D, .A, .B, .C, k, s, i⟩

/-- `[CDAB k s i]`. -/
def cdab (k s i : ℕ) : Operation := ⟨.C, .D, .A, .B, k, s, i⟩

/-- `[BCDA k s i]`. -/
def bcda (k s i : ℕ) : Operation := ⟨.B, .C, .D, .A, k, s, i⟩

/-- Round 1. -/
def round1 : List Operation := [
  abcd 0 7 1, dabc 1 12 2, cdab 2 17 3, bcda 3 22 4,
  abcd 4 7 5, dabc 5 12 6, cdab 6 17 7, bcda 7 22 8,
  abcd 8 7 9, dabc 9 12 10, cdab 10 17 11, bcda 11 22 12,
  abcd 12 7 13, dabc 13 12 14, cdab 14 17 15, bcda 15 22 16]

/-- Round 2. -/
def round2 : List Operation := [
  abcd 1 5 17, dabc 6 9 18, cdab 11 14 19, bcda 0 20 20,
  abcd 5 5 21, dabc 10 9 22, cdab 15 14 23, bcda 4 20 24,
  abcd 9 5 25, dabc 14 9 26, cdab 3 14 27, bcda 8 20 28,
  abcd 13 5 29, dabc 2 9 30, cdab 7 14 31, bcda 12 20 32]

/-- Round 3. -/
def round3 : List Operation := [
  abcd 5 4 33, dabc 8 11 34, cdab 11 16 35, bcda 14 23 36,
  abcd 1 4 37, dabc 4 11 38, cdab 7 16 39, bcda 10 23 40,
  abcd 13 4 41, dabc 0 11 42, cdab 3 16 43, bcda 6 23 44,
  abcd 9 4 45, dabc 12 11 46, cdab 15 16 47, bcda 2 23 48]

/-- Round 4. -/
def round4 : List Operation := [
  abcd 0 6 49, dabc 7 10 50, cdab 14 15 51, bcda 5 21 52,
  abcd 12 6 53, dabc 3 10 54, cdab 10 15 55, bcda 1 21 56,
  abcd 8 6 57, dabc 15 10 58, cdab 6 15 59, bcda 13 21 60,
  abcd 4 6 61, dabc 11 10 62, cdab 2 15 63, bcda 9 21 64]

/-- One operation. -/
noncomputable def operate (f : UInt32 → UInt32 → UInt32 → UInt32) (X : ℕ → UInt32)
    (regs : Register → UInt32) (op : Operation) : Register → UInt32 :=
  Function.update regs op.a (regs op.b +
    rotl (regs op.a + f (regs op.b) (regs op.c) (regs op.d) + X op.k + sineTable op.i) op.s)

/-- The four rounds of a block, and the addition to the registers they started from. -/
noncomputable def compress (regs : Register → UInt32) (X : ℕ → UInt32) : Register → UInt32 :=
  let regs₁ := round1.foldl (operate F X) regs
  let regs₂ := round2.foldl (operate G X) regs₁
  let regs₃ := round3.foldl (operate H X) regs₂
  let regs₄ := round4.foldl (operate I X) regs₃
  fun reg => regs reg + regs₄ reg

/-! ## The digest -/

/-- The registers at the start. -/
def initial : Register → UInt32
  | .A => 0x67452301
  | .B => 0xefcdab89
  | .C => 0x98badcfe
  | .D => 0x10325476

/-- The digest of a message. -/
noncomputable def md5 (message : List UInt8) : List UInt8 :=
  let regs := (blocks (padded message)).foldl (fun regs block => compress regs (word block)) initial
  leBytes 4 (regs .A).toNat ++ leBytes 4 (regs .B).toNat ++ leBytes 4 (regs .C).toNat ++
    leBytes 4 (regs .D).toNat

end HyUtils.Md5
