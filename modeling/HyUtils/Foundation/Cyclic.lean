import Mathlib.Algebra.Group.Nat.Defs
import Mathlib.Tactic.Ring

/-!
# Countdowns on a ring of slots

A hand moves over the slots `0, …, n - 1` of a ring, one slot a tick. What waits in a slot for a
number of further rounds is due after a number of ticks: the distance from the hand to the slot,
and `n` ticks a round.

## Main definitions

* `ahead n c i`: the distance from the hand at `c` to the slot `i`
* `countdown n c i r`: the ticks before something in slot `i` with `r` rounds to wait is due

## Main results

* `countdown_tick_of_ne`, `countdown_tick_of_pos`: a tick takes one off the countdown
* `countdown_eq_zero`: something is due when the hand is at its slot and no rounds are left
* `countdown_of_split`: the countdown of a delay split into a slot and rounds, relative to the hand
* `countdown_of_split_zero`: the same split relative to slot 0 is the delay only with the hand
  at 0
-/

namespace Cyclic

/-- The distance from the hand at `c` to the slot `i`. -/
def ahead (n c i : ℕ) : ℕ := (i + n - c) % n

/-- The ticks before something in slot `i`, with `r` rounds to wait, is due. -/
def countdown (n c i r : ℕ) : ℕ := ahead n c i + n * r

variable {n c i r : ℕ}

theorem ahead_of_le (hi : i < n) (hc : c ≤ i) : ahead n c i = i - c := by
  rw [ahead, show i + n - c = (i - c) + n by omega, Nat.add_mod_right, Nat.mod_eq_of_lt (by omega)]

theorem ahead_of_lt (hc : c < n) (h : i < c) : ahead n c i = i + n - c :=
  Nat.mod_eq_of_lt (by omega)

theorem ahead_lt (hc : c < n) : ahead n c i < n := Nat.mod_lt _ (by omega)

theorem ahead_self (hc : c < n) : ahead n c c = 0 := by
  rw [ahead_of_le hc le_rfl, Nat.sub_self]

theorem ahead_eq_zero (hc : c < n) (hi : i < n) : ahead n c i = 0 ↔ i = c := by
  rcases Nat.lt_or_ge i c with h | h
  · rw [ahead_of_lt hc h]
    omega
  · rw [ahead_of_le hi h]
    omega

theorem next_eq (hc : c < n) : (c + 1) % n = if c + 1 = n then 0 else c + 1 := by
  split_ifs with h
  · rw [h, Nat.mod_self]
  · exact Nat.mod_eq_of_lt (by omega)

/-- A tick brings the hand one closer to every slot it does not leave. -/
theorem ahead_next (hc : c < n) (hi : i < n) (hne : i ≠ c) :
    ahead n ((c + 1) % n) i + 1 = ahead n c i := by
  rw [next_eq hc]
  rcases Nat.lt_or_gt_of_ne hne with h | h
  · rw [ahead_of_lt hc h]
    split_ifs with hn
    · rw [ahead_of_le hi (Nat.zero_le _)]
      omega
    · rw [ahead_of_lt (by omega) (by omega)]
      omega
  · rw [ahead_of_le hi h.le, if_neg (by omega), ahead_of_le hi (by omega)]
    omega

/-- The slot the hand leaves is the last it returns to. -/
theorem ahead_next_self (hc : c < n) : ahead n ((c + 1) % n) c + 1 = n := by
  rw [next_eq hc]
  split_ifs with h
  · rw [ahead_of_le hc (Nat.zero_le _)]
    omega
  · rw [ahead_of_lt (by omega) (by omega)]
    omega

theorem countdown_eq_zero (hc : c < n) (hi : i < n) : countdown n c i r = 0 ↔ i = c ∧ r = 0 := by
  rw [countdown, Nat.add_eq_zero_iff, ahead_eq_zero hc hi, Nat.mul_eq_zero]
  omega

/-- **A tick at another slot** takes one off the countdown. -/
theorem countdown_tick_of_ne (hc : c < n) (hi : i < n) (hne : i ≠ c) :
    countdown n ((c + 1) % n) i r + 1 = countdown n c i r := by
  have := ahead_next hc hi hne
  rw [countdown, countdown]
  omega

/-- **A tick at the slot** takes one off the countdown when a round is left. -/
theorem countdown_tick_of_pos (hc : c < n) :
    countdown n ((c + 1) % n) c r + 1 = countdown n c c (r + 1) := by
  have := ahead_next_self hc
  rw [countdown, countdown, ahead_self hc, Nat.mul_add]
  omega

/-- Something left in the slot the hand leaves waits for whole rounds. -/
theorem countdown_of_round (hc : c < n) : countdown n ((c + 1) % n) c r + 1 = n * (r + 1) := by
  rw [countdown_tick_of_pos hc, countdown, ahead_self hc, Nat.zero_add]

/-- **A delay split relative to the hand**, after the tick it is split in. -/
theorem countdown_of_split (hc : c < n) {e : ℕ} (he : e % n ≠ 0) :
    countdown n ((c + 1) % n) ((e % n + c) % n) (e / n) + 1 = e := by
  have hlt := Nat.mod_lt e (by omega : 0 < n)
  have hslot : (e % n + c) % n < n := Nat.mod_lt _ (by omega)
  -- The delay is no multiple of `n`, so the slot is not the one the hand leaves.
  have hne : (e % n + c) % n ≠ c := by
    rcases Nat.lt_or_ge (e % n + c) n with h | h
    · rw [Nat.mod_eq_of_lt h]
      omega
    · rw [Nat.mod_eq_sub_mod h, Nat.mod_eq_of_lt (by omega)]
      omega
  -- Seen from the hand, the slot is the remainder ahead, across the end of the ring or not.
  have hahead : ahead n c ((e % n + c) % n) = e % n := by
    rcases Nat.lt_or_ge (e % n + c) n with h | h
    · rw [Nat.mod_eq_of_lt h, ahead_of_le h (by omega), Nat.add_sub_cancel]
    · rw [Nat.mod_eq_sub_mod h, Nat.mod_eq_of_lt (by omega), ahead_of_lt hc (by omega)]
      omega
  -- The remainder and the rounds make up the delay.
  rw [countdown_tick_of_ne hc hslot hne, countdown, hahead, Nat.mod_add_div]

/-- **A delay split relative to slot 0** is counted down from the hand: it is the delay exactly
when the hand is at 0. -/
theorem countdown_of_split_zero (hc : c < n) (e : ℕ) :
    countdown n c (e % n) (e / n) = e ↔ c = 0 := by
  have hlt := Nat.mod_lt e (by omega : 0 < n)
  have hdiv := Nat.mod_add_div e n
  rw [countdown]
  rcases Nat.lt_or_ge (e % n) c with h | h
  · -- the hand has passed the slot: it waits `n - c` ticks more than the delay
    rw [ahead_of_lt hc h]
    omega
  · -- the hand is in front of the slot: it waits `c` ticks less than the delay
    rw [ahead_of_le hlt h]
    omega

end Cyclic
