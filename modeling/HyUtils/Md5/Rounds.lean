import HyUtils.Foundation.Run
import HyUtils.Foundation.SineDigits
import HyUtils.Foundation.Words
import HyUtils.Md5.Model
import HyUtils.Md5.Spec

/-!
# The rounds of a chunk

The source turns the four variables round after each step, where the specification turns the
registers that an operation names. So the variables after a step are the registers seen from the
register that the next operation writes, and the 64 steps of the source are the four rounds.

## Main definitions

* `Register.next`: the cycle of the registers
* `view`: the variables of the source, seen in the registers
* `operationAt`: the operation of a step

## Main results

* `k_eq_sineTable`: the table `k` holds the constants `T[i]`
* `leftrotate_eq_rotl`: the macro rotates
* `step_view`: a step performs its operation
* `chunk_view`: a chunk performs the four rounds
-/

namespace HyUtils.Md5

open LittleEndian Words

/-! ## The tables -/

theorem getElem?_eq_getD {l : List UInt32} {i : ℕ} (h : i < l.length) :
    l[i]? = some (l.getD i 0) := by
  rw [List.getD_eq_getElem?_getD, List.getElem?_eq_getElem h, Option.getD_some]

theorem certified_k : ∀ i < 64, SineDigits.Certified 4294967296 (i + 1) (k.getD i 0).toNat := by
  decide +kernel

/-- The table `k` holds the integer parts of the multiples of sines. -/
theorem k_eq_sineTable {i : ℕ} (h : i < 64) : k[i]? = some (sineTable (i + 1)) := by
  rw [sineTable, SineDigits.floor_mul_abs_sin (certified_k i h), UInt32.ofNat_toNat,
    getElem?_eq_getD h]

/-- The rotation of a step. -/
def shift (i : ℕ) : ℕ := (r.getD i 0).toNat

theorem r_eq_shift {i : ℕ} (h : i < 64) : r[i]? = some (UInt32.ofNat (shift i)) := by
  rw [shift, UInt32.ofNat_toNat, getElem?_eq_getD h]

theorem shift_bounds : ∀ i < 64, 0 < shift i ∧ shift i < 32 := by decide

/-- The macro rotates to the left. -/
theorem leftrotate_eq_rotl {x : UInt32} {s : ℕ} (hpos : 0 < s) (hlt : s < 32) :
    leftrotate x (UInt32.ofNat s) = rotl x s := by
  have hs : (UInt32.ofNat s).toNat = s := UInt32.toNat_ofNat_of_lt' (hlt.trans (by decide))
  have hsub : (32 - UInt32.ofNat s).toNat = 32 - s := by
    have hle : UInt32.ofNat s ≤ 32 := by
      rw [UInt32.le_iff_toNat_le, hs]
      exact hlt.le
    rw [UInt32.toNat_sub_of_le _ _ hle, hs]
    rfl
  have hrot : x.toBitVec.rotateLeft s = x.toBitVec <<< s ||| x.toBitVec >>> (32 - s) := by
    rw [BitVec.rotateLeft, BitVec.rotateLeftAux, Nat.mod_eq_of_lt hlt]
  apply UInt32.toBitVec_inj.mp
  rw [leftrotate, rotl, hrot, UInt32.toBitVec_or, UInt32.toBitVec_shiftLeft,
    UInt32.toBitVec_shiftRight, BitVec.shiftLeft_eq', BitVec.ushiftRight_eq']
  simp only [BitVec.toNat_umod, UInt32.toNat_toBitVec, hs, hsub]
  -- Both shifts are below 32, so neither is reduced.
  change x.toBitVec <<< (s % 32) ||| x.toBitVec >>> ((32 - s) % 32) = _
  rw [Nat.mod_eq_of_lt hlt, Nat.mod_eq_of_lt (by omega)]

/-! ## The registers -/

/-- The register after a register in the cycle. -/
def Register.next : Register → Register
  | .A => .B
  | .B => .C
  | .C => .D
  | .D => .A

/-- The register that a step writes. -/
def written : ℕ → Register
  | 0 => .A
  | i + 1 => (written i).next.next.next

/-- The variables of the source at a step, seen in the registers. -/
def view (i : ℕ) (regs : Register → UInt32) : State where
  a := regs (written i)
  b := regs (written i).next
  c := regs (written i).next.next
  d := regs (written i).next.next.next

@[simp] theorem Register.next_four (reg : Register) : reg.next.next.next.next = reg := by
  cases reg <;> rfl

/-- After four steps the variables are back. -/
theorem written_four_mul (m : ℕ) : written (4 * m) = .A := by
  induction m with
  | zero => rfl
  | succ m ih =>
    rw [Nat.mul_succ, written, written, written, written, ih]
    rfl

/-- A register written is seen as `b` at the next step, and the others move on. -/
theorem view_update (i : ℕ) (regs : Register → UInt32) (v : UInt32) :
    view (i + 1) (Function.update regs (written i) v) =
      { a := (view i regs).d, b := v, c := (view i regs).b, d := (view i regs).c } := by
  have hne : (written i).next ≠ written i ∧ (written i).next.next ≠ written i ∧
      (written i).next.next.next ≠ written i := by cases written i <;> decide
  simp [view, written, Function.update_of_ne, hne]

/-! ## The steps -/

/-- The function of the round of a step. -/
def roundFunction (i : ℕ) : UInt32 → UInt32 → UInt32 → UInt32 :=
  if i < 16 then F else if i < 32 then G else if i < 48 then H else I

/-- The word that a step reads. -/
def wordIndex (i : ℕ) : ℕ :=
  if i < 16 then i else if i < 32 then (5 * i + 1) % 16 else if i < 48 then (3 * i + 5) % 16
  else (7 * i) % 16

/-- The operation of a step. -/
def operationAt (i : ℕ) : Operation where
  a := written i
  b := (written i).next
  c := (written i).next.next
  d := (written i).next.next.next
  k := wordIndex i
  s := shift i
  i := i + 1

theorem wordIndex_lt {i : ℕ} : wordIndex i < 16 := by
  unfold wordIndex
  split_ifs <;> omega

/-- The four branches of the source. -/
theorem step_eq {w : List UInt32} {i : ℕ} {ki wg ri : UInt32} (hk : k[i]? = some ki)
    (hw : w[wordIndex i]? = some wg) (hr : r[i]? = some ri) (state : State) :
    step w state i = some {
      a := state.d
      b := state.b + leftrotate (state.a + roundFunction i state.b state.c state.d + ki + wg) ri
      c := state.b
      d := state.c } := by
  unfold wordIndex at hw
  unfold step roundFunction
  split_ifs at hw ⊢
  · simp [hk, hw, hr, F]
  · -- the source writes the function of round 2 with its operands the other way
    simp [hk, hw, hr, G, UInt32.and_comm]
  · simp [hk, hw, hr, H]
  · simp [hk, hw, hr, I]

/-- **A step** performs its operation. -/
theorem step_view {i : ℕ} (hi : i < 64) (X : ℕ → UInt32) (regs : Register → UInt32) :
    step ((List.range 16).map X) (view i regs) i =
      some (view (i + 1) (operate (roundFunction i) X regs (operationAt i))) := by
  obtain ⟨hpos, hlt⟩ := shift_bounds i hi
  have hword : ((List.range 16).map X)[wordIndex i]? = some (X (wordIndex i)) := by
    rw [List.getElem?_map, List.getElem?_range wordIndex_lt, Option.map_some]
  rw [step_eq (k_eq_sineTable hi) hword (r_eq_shift hi), leftrotate_eq_rotl hpos hlt]
  -- The source adds the constant before the word, the specification after it.
  rw [show operate (roundFunction i) X regs (operationAt i) = Function.update regs (written i) _
    from rfl, view_update, UInt32.add_assoc _ (sineTable (i + 1)),
    UInt32.add_comm (sineTable (i + 1)), ← UInt32.add_assoc]
  rfl

/-! ## The rounds -/

theorem round1_eq : round1 = (List.range' 0 16).map operationAt := by decide

theorem round2_eq : round2 = (List.range' 16 16).map operationAt := by decide

theorem round3_eq : round3 = (List.range' 32 16).map operationAt := by decide

theorem round4_eq : round4 = (List.range' 48 16).map operationAt := by decide

/-- The steps of one round. -/
theorem round_view {f : UInt32 → UInt32 → UInt32 → UInt32} (start n : ℕ) (hend : start + n ≤ 64)
    (hf : ∀ i, start ≤ i → i < start + n → roundFunction i = f) (X : ℕ → UInt32)
    (regs : Register → UInt32) :
    (List.range' start n).foldlM (step ((List.range 16).map X)) (view start regs) =
      some (view (start + n)
        (((List.range' start n).map operationAt).foldl (operate f X) regs)) := by
  rw [List.foldl_map]
  refine Runs.foldlM_range' (g := fun regs i => operate f X regs (operationAt i)) ?_
  intro regs i hlow hhigh
  rw [step_view (by omega), hf i hlow hhigh]

theorem range_rounds : List.range 64 =
    List.range' 0 16 ++ List.range' 16 16 ++ List.range' 32 16 ++ List.range' 48 16 := by decide

/-- The 64 steps are the four rounds. -/
theorem steps_view (X : ℕ → UInt32) (regs : Register → UInt32) :
    (List.range 64).foldlM (step ((List.range 16).map X)) (view 0 regs) =
      some (view 0 (round4.foldl (operate I X) (round3.foldl (operate H X)
        (round2.foldl (operate G X) (round1.foldl (operate F X) regs))))) := by
  have h₁ := @round_view F 0 16 (by omega) (fun i _ hi => if_pos hi) X
  have h₂ := @round_view G 16 16 (by omega) (fun i _ hi => by
    rw [roundFunction, if_neg (by omega), if_pos hi]) X
  have h₃ := @round_view H 32 16 (by omega) (fun i _ hi => by
    rw [roundFunction, if_neg (by omega), if_neg (by omega), if_pos hi]) X
  have h₄ := @round_view I 48 16 (by omega) (fun i _ hi => by
    rw [roundFunction, if_neg (by omega), if_neg (by omega), if_neg (by omega)]) X
  -- After 64 steps the variables are back at their registers.
  have hview : view (48 + 16) = view 0 := by
    funext regs
    rw [view, written_four_mul 16]
    rfl
  rw [range_rounds, List.foldlM_append, List.foldlM_append, List.foldlM_append, h₁,
    Option.bind_eq_bind, Option.bind_some, h₂, Option.bind_some, h₃, Option.bind_some, h₄,
    ← round1_eq, ← round2_eq, ← round3_eq, ← round4_eq, hview]

/-! ## The words -/

/-- `to_int32` reads a little-endian number. -/
theorem toInt32_eq {bytes : List UInt8} (h : 4 ≤ bytes.length) :
    toInt32 bytes = some (UInt32.ofNat (ofLeBytes (bytes.take 4))) := by
  obtain ⟨b₀, b₁, b₂, b₃, rest, rfl⟩ :
      ∃ b₀ b₁ b₂ b₃ rest, bytes = b₀ :: b₁ :: b₂ :: b₃ :: rest := by
    match bytes, h with
    | b₀ :: b₁ :: b₂ :: b₃ :: rest, _ => exact ⟨b₀, b₁, b₂, b₃, rest, rfl⟩
  have h₀ : b₀.toNat < 2 ^ 8 := b₀.toNat_lt
  have h₁ : b₁.toNat < 2 ^ 8 := b₁.toNat_lt
  have h₂ : b₂.toNat < 2 ^ 8 := b₂.toNat_lt
  simp only [toInt32, List.getElem?_cons_zero, List.getElem?_cons_succ, Option.bind_eq_bind,
    Option.bind_some, Option.pure_def, Option.some.injEq]
  have hfit : ofLeBytes [b₀, b₁, b₂, b₃] < 2 ^ 32 := (ofLeBytes_lt _).trans_eq (by norm_num)
  have hval : ofLeBytes [b₀, b₁, b₂, b₃] =
      b₀.toNat + b₁.toNat * 2 ^ 8 + b₂.toNat * 2 ^ 16 + b₃.toNat * 2 ^ 24 := by
    simp only [ofLeBytes]
    omega
  change _ = UInt32.ofNat (ofLeBytes [b₀, b₁, b₂, b₃])
  apply UInt32.toNat_inj.mp
  rw [UInt32.toNat_or, UInt32.toNat_or, UInt32.toNat_or, toNat_byte_shiftLeft (by decide),
    toNat_byte_shiftLeft (by decide), toNat_byte_shiftLeft (by decide), UInt8.toNat_toUInt32,
    UInt32.toNat_ofNat_of_lt' hfit, hval]
  -- Each byte is or'ed in above the number of those before it.
  change b₀.toNat ||| b₁.toNat <<< 8 ||| b₂.toNat <<< 16 ||| b₃.toNat <<< 24 = _
  rw [or_shiftLeft_eq_add h₀, or_shiftLeft_eq_add (by omega) b₂.toNat,
    or_shiftLeft_eq_add (by omega) b₃.toNat]

/-- The words of a chunk are those of its block. -/
theorem words_eq {msg : List UInt8} {offset : ℕ} (h : offset + 64 ≤ msg.length) :
    words msg offset = some ((List.range 16).map (word ((msg.drop offset).take 64))) := by
  refine Runs.mapM_eq_some_map fun i hi => ?_
  have hi : i < 16 := List.mem_range.mp hi
  have hlen : 4 ≤ (msg.drop (offset + i * 4)).length := by
    rw [List.length_drop]
    omega
  rw [toInt32_eq hlen, word, List.drop_take, List.take_take, List.drop_drop, Nat.mul_comm i 4,
    Nat.min_eq_left (by omega)]

/-- **A chunk** performs the four rounds on its block. -/
theorem chunk_view {msg : List UInt8} {offset : ℕ} (h : offset + 64 ≤ msg.length)
    (regs : Register → UInt32) : chunk msg (view 0 regs) offset =
      some (view 0 (compress regs (word ((msg.drop offset).take 64)))) := by
  rw [chunk, words_eq h, Option.bind_eq_bind, Option.bind_some, steps_view]
  rfl

end HyUtils.Md5
