import Mathlib.Algebra.Group.Nat.Defs
import PinRing.Placement.Config

/-! A share of a count is at most the count, as long as doubles hold the count exactly. -/

namespace PinRing

/-- Rounding to a multiple of a power of two does not go past a greater multiple. -/
theorem roundShift_le {n k q : Nat} (h : n ≤ q <<< k) : roundShift n k ≤ q := by
  have hpos : 0 < 2 ^ k := Nat.two_pow_pos k
  have hsplit := Nat.div_add_mod n (2 ^ k)
  rw [Nat.shiftLeft_eq, Nat.mul_comm] at h
  have hdiv : n / 2 ^ k ≤ q := Nat.div_le_of_le_mul h
  rcases Nat.lt_or_ge 0 (n % 2 ^ k) with hrest | hrest
  · have hlt : n / 2 ^ k < q := by
      refine Nat.lt_of_mul_lt_mul_left (a := 2 ^ k) ?_
      omega
    simp only [roundShift, Nat.one_shiftLeft, Nat.shiftRight_eq_div_pow]
    split
    · omega
    · split <;> omega
  · have hzero : n % 2 ^ k = 0 := Nat.le_zero.mp hrest
    simp only [roundShift, Nat.one_shiftLeft, Nat.shiftRight_eq_div_pow, hzero, Nat.mul_zero,
      if_pos hpos]
    exact hdiv

theorem roundToDouble_of_lt {n : Nat} (h : n < 2 ^ 53) : roundToDouble n = n := by
  have hk : n.log2 + 1 - 53 = 0 := by
    rcases Nat.eq_zero_or_pos n with rfl | hn
    · rfl
    · have := (Nat.log2_lt (Nat.ne_of_gt hn)).mpr h
      omega
  simp [roundToDouble, hk, roundShift, Nat.mod_one]

/-- Rounding to a double does not go past a greater product of a double and a power of two. -/
theorem roundToDouble_le {n q s : Nat} (h : n ≤ q <<< s) (hq : q < 2 ^ 53) :
    roundToDouble n ≤ q <<< s := by
  have hk : n.log2 + 1 - 53 ≤ s := by
    rcases Nat.eq_zero_or_pos n with rfl | hn
    · exact Nat.zero_le s
    · have hlt : n < 2 ^ (53 + s) := by
        rw [Nat.shiftLeft_eq] at h
        have := Nat.mul_lt_mul_of_pos_right hq (Nat.two_pow_pos s)
        rw [Nat.pow_add]
        omega
      have := (Nat.log2_lt (Nat.ne_of_gt hn)).mpr hlt
      omega
  obtain ⟨d, hd⟩ := Nat.exists_eq_add_of_le hk
  rw [hd, Nat.add_comm, Nat.shiftLeft_add] at h ⊢
  have hround := roundShift_le h
  rw [roundToDouble, Nat.shiftLeft_eq, Nat.shiftLeft_eq _ (n.log2 + 1 - 53)]
  exact Nat.mul_le_mul_right _ hround

/-- A share of a count below `2 ^ 53` is at most the count. -/
theorem Fraction.floorMul_le (f : Fraction) {n : Nat} (h : n < 2 ^ 53) : f.floorMul n ≤ n := by
  have hle : n * f.mantissa ≤ n <<< f.scale := by
    rw [Nat.shiftLeft_eq]
    have := f.mantissa_le
    rw [Nat.one_shiftLeft] at this
    exact Nat.mul_le_mul_left n this
  rw [floorMul, roundToDouble_of_lt h, Nat.shiftRight_eq_div_pow]
  have hround := roundToDouble_le hle h
  rw [Nat.shiftLeft_eq] at hround
  exact Nat.div_le_of_le_mul (Nat.mul_comm n _ ▸ hround)

/-- On sections of fewer than `2 ^ 53` available slots, at least one, the capacity is at least one
and no more than the slots. -/
theorem Config.capacity_le (c : Config) {room : Nat} (hpos : 0 < room) (h : room < 2 ^ 53) :
    0 < c.capacity room ∧ c.capacity room ≤ room := by
  have := c.usageFactor.floorMul_le h
  rw [capacity]
  omega

end PinRing
