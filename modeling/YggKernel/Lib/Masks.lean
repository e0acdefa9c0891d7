import Mathlib.Data.Nat.Bitwise
import Mathlib.Tactic

namespace YggKernel.Lib.Masks

theorem and_high_mask {x k : Nat} (hk : k ≤ 32) (hx : x < 2 ^ 32) :
    x &&& (2 ^ 32 - 2 ^ k) = x / 2 ^ k * 2 ^ k := by
  have hmask : 2 ^ 32 - 2 ^ k = (2 ^ (32 - k) - 1) * 2 ^ k := by
    rw [Nat.sub_mul, ← Nat.pow_add, Nat.sub_add_cancel hk, Nat.one_mul]
  rw [hmask]
  refine Nat.eq_of_testBit_eq fun i => ?_
  rw [Nat.testBit_and, Nat.testBit_mul_two_pow, Nat.testBit_mul_two_pow, Nat.testBit_div_two_pow,
    Nat.testBit_two_pow_sub_one]
  by_cases hki : k ≤ i
  · by_cases hi : i < 32
    · simp [hki, show i - k < 32 - k by omega]
    · have hlt : x < 2 ^ i := hx.trans_le (Nat.pow_le_pow_right (by decide) (by omega))
      simp [Nat.testBit_lt_two_pow hlt, hki]
  · simp [hki]

theorem and_pow_eq_zero (x k : Nat) : x &&& 2 ^ k = 0 ↔ x / 2 ^ k % 2 = 0 := by
  rw [Nat.and_two_pow, Nat.testBit_eq_decide_div_mod_eq]
  rcases Nat.mod_two_eq_zero_or_one (x / 2 ^ k) with h | h <;> simp [h]

theorem or_eq_add {x y k : Nat} (hx : x % 2 ^ k = 0) (hy : y < 2 ^ k) : x ||| y = x + y := by
  have hsplit : x = (x / 2 ^ k) <<< k := by
    rw [Nat.shiftLeft_eq]
    exact (Nat.div_mul_cancel (Nat.dvd_of_mod_eq_zero hx)).symm
  rw [hsplit, ← Nat.shiftLeft_add_eq_or_of_lt hy]

theorem and_mod_two_pow {x y k : Nat} (hy : y < 2 ^ k) : x &&& y = x % 2 ^ k &&& y := by
  have h := Nat.and_two_pow_sub_one_eq_mod (x &&& y) k
  rw [Nat.mod_eq_of_lt (lt_of_le_of_lt Nat.and_le_right hy)] at h
  rw [← Nat.and_two_pow_sub_one_eq_mod x k, Nat.and_assoc, Nat.and_comm (2 ^ k - 1) y, ← Nat.and_assoc, h]

end YggKernel.Lib.Masks
