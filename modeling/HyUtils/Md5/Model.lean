import HyUtils.Foundation.Region

/-!
# The MD5 module

`src/hy_md5sum.c` on a 64-bit host. Buffers are regions, so an access out of bounds is a missing
result. The allocation of the padded buffer, which the source does not check, succeeds.

## Main definitions

* `k`, `r`, `leftrotate`, `toBytes`, `toInt32`: the tables, the macro and the two conversions
* `newLenLoop`, `prepare`: the padded buffer
* `words`, `step`, `chunk`: the words of a 64-byte chunk, a step of the main loop, and a chunk
* `hyMd5sum`: `HyMd5sum`
-/

namespace HyUtils.Md5

open Region

/-- `k`. -/
def k : List UInt32 := [
  0xd76aa478, 0xe8c7b756, 0x242070db, 0xc1bdceee,
  0xf57c0faf, 0x4787c62a, 0xa8304613, 0xfd469501,
  0x698098d8, 0x8b44f7af, 0xffff5bb1, 0x895cd7be,
  0x6b901122, 0xfd987193, 0xa679438e, 0x49b40821,
  0xf61e2562, 0xc040b340, 0x265e5a51, 0xe9b6c7aa,
  0xd62f105d, 0x02441453, 0xd8a1e681, 0xe7d3fbc8,
  0x21e1cde6, 0xc33707d6, 0xf4d50d87, 0x455a14ed,
  0xa9e3e905, 0xfcefa3f8, 0x676f02d9, 0x8d2a4c8a,
  0xfffa3942, 0x8771f681, 0x6d9d6122, 0xfde5380c,
  0xa4beea44, 0x4bdecfa9, 0xf6bb4b60, 0xbebfbc70,
  0x289b7ec6, 0xeaa127fa, 0xd4ef3085, 0x04881d05,
  0xd9d4d039, 0xe6db99e5, 0x1fa27cf8, 0xc4ac5665,
  0xf4292244, 0x432aff97, 0xab9423a7, 0xfc93a039,
  0x655b59c3, 0x8f0ccc92, 0xffeff47d, 0x85845dd1,
  0x6fa87e4f, 0xfe2ce6e0, 0xa3014314, 0x4e0811a1,
  0xf7537e82, 0xbd3af235, 0x2ad7d2bb, 0xeb86d391]

/-- `r`. -/
def r : List UInt32 := [
  7, 12, 17, 22, 7, 12, 17, 22, 7, 12, 17, 22, 7, 12, 17, 22,
  5, 9, 14, 20, 5, 9, 14, 20, 5, 9, 14, 20, 5, 9, 14, 20,
  4, 11, 16, 23, 4, 11, 16, 23, 4, 11, 16, 23, 4, 11, 16, 23,
  6, 10, 15, 21, 6, 10, 15, 21, 6, 10, 15, 21, 6, 10, 15, 21]

/-- `LEFTROTATE`. -/
def leftrotate (x c : UInt32) : UInt32 := (x <<< c) ||| (x >>> (32 - c))

/-- The bytes `to_bytes` writes. -/
def toBytes (val : UInt32) : List UInt8 :=
  [val.toUInt8, (val >>> 8).toUInt8, (val >>> 16).toUInt8, (val >>> 24).toUInt8]

/-- `to_int32`. -/
def toInt32 (bytes : List UInt8) : Option UInt32 := do
  let b₀ ← bytes[0]?
  let b₁ ← bytes[1]?
  let b₂ ← bytes[2]?
  let b₃ ← bytes[3]?
  return b₀.toUInt32 ||| (b₁.toUInt32 <<< 8) ||| (b₂.toUInt32 <<< 16) ||| (b₃.toUInt32 <<< 24)

/-- The loop that finds `new_len`; it ends in at most 63 rounds. -/
def newLenLoop : ℕ → UInt64 → UInt64
  | 0, newLen => newLen
  | fuel + 1, newLen => if newLen % 64 ≠ 56 then newLenLoop fuel (newLen + 1) else newLen

/-- The padded buffer, and `new_len`. -/
def prepare (initialMsg : List UInt8) (initialLen : UInt64) : Option (List UInt8 × UInt64) := do
  let newLen := newLenLoop 64 (initialLen + 1)
  let msg := List.replicate (newLen + 8).toNat 0
  let msg ← memcpy msg 0 initialMsg 0 initialLen.toNat
  let msg ← store msg initialLen.toNat [0x80]
  let msg ← (List.range' (initialLen + 1).toNat (newLen.toNat - (initialLen + 1).toNat)).foldlM
    (fun msg offset => store msg offset [0]) msg
  let msg ← store msg newLen.toNat (toBytes (initialLen * 8).toUInt32)
  let msg ← store msg (newLen.toNat + 4) (toBytes (initialLen >>> 29).toUInt32)
  return (msg, newLen)

/-- The variables `a`, `b`, `c` and `d`, or `h0`, `h1`, `h2` and `h3`. -/
structure State where
  a : UInt32
  b : UInt32
  c : UInt32
  d : UInt32

/-- The body of the main loop at `i`. -/
def step (w : List UInt32) (state : State) (i : ℕ) : Option State := do
  let ⟨a, b, c, d⟩ := state
  let (f, g) :=
    if i < 16 then ((b &&& c) ||| (~~~b &&& d), i)
    else if i < 32 then ((d &&& b) ||| (~~~d &&& c), (5 * i + 1) % 16)
    else if i < 48 then (b ^^^ c ^^^ d, (3 * i + 5) % 16)
    else (c ^^^ (b ||| ~~~d), (7 * i) % 16)
  let ki ← k[i]?
  let wg ← w[g]?
  let ri ← r[i]?
  return { a := d, b := b + leftrotate (a + f + ki + wg) ri, c := b, d := c }

/-- The words `w` of the chunk at `offset`. -/
def words (msg : List UInt8) (offset : ℕ) : Option (List UInt32) :=
  (List.range 16).mapM fun i => toInt32 (msg.drop (offset + i * 4))

/-- The body of the loop over the chunks at `offset`. -/
def chunk (msg : List UInt8) (h : State) (offset : ℕ) : Option State := do
  let w ← words msg offset
  let state ← (List.range 64).foldlM (step w) h
  return { a := h.a + state.a, b := h.b + state.b, c := h.c + state.c, d := h.d + state.d }

/-- `HyMd5sum`, with the array `digest` after the call. -/
def hyMd5sum (initialMsg : List UInt8) (initialLen : UInt64) (digest : List UInt8) :
    Option (List UInt8) := do
  let (msg, newLen) ← prepare initialMsg initialLen
  let h ← (List.range ((newLen.toNat + 63) / 64)).foldlM (fun h n => chunk msg h (64 * n))
    { a := 0x67452301, b := 0xefcdab89, c := 0x98badcfe, d := 0x10325476 }
  let digest ← store digest 0 (toBytes h.a)
  let digest ← store digest 4 (toBytes h.b)
  let digest ← store digest 8 (toBytes h.c)
  store digest 12 (toBytes h.d)

end HyUtils.Md5
