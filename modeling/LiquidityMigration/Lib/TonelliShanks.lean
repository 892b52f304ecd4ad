import Mathlib

/- Square roots by Tonelli and Shanks, in any field. The loop keeps `x^2 = a b`, an
   element `z` whose power `2^(v-1)` is `-1`, and `b` in the group that the square of `z`
   generates. While `b` is not one, its order is found by squaring and `z` takes it
   down (`Loop.round`): the order falls in every round, so the loop ends, with
   a root of `a`. -/
namespace TonelliShanks

variable {K : Type*} [Field K] {a z x b : K} {v k : ℕ}

structure Loop (a z x b : K) (v : ℕ) : Prop where
  pos : 1 ≤ v
  square : x ^ 2 = a * b
  order : b ^ 2 ^ (v - 1) = 1
  root : z ^ 2 ^ (v - 1) = -1

/-- `k` squarings take `b` to one, and no fewer. -/
structure Squarings (b : K) (k : ℕ) : Prop where
  one : b ^ 2 ^ k = 1
  least : ∀ j < k, b ^ 2 ^ j ≠ 1

theorem Squarings.succ (h : Squarings (b ^ 2) k) (hb : b ≠ 1) : Squarings b (k + 1) := by
  constructor
  · rw [pow_succ', pow_mul]
    exact h.one
  · intro j hj
    cases j with
    | zero => simpa using hb
    | succ j =>
      rw [pow_succ', pow_mul]
      exact h.least j (by omega)

theorem Loop.lt (h : Loop a z x b v) (hk : Squarings b k) : k < v := by
  have hpos := h.pos
  by_contra hle
  exact hk.least (v - 1) (by omega) h.order

theorem Loop.round (h : Loop a z x b v) (hk : Squarings b k) (hb : b ≠ 1) :
    Loop a ((z ^ 2 ^ (v - k - 1)) ^ 2) (x * z ^ 2 ^ (v - k - 1)) (b * (z ^ 2 ^ (v - k - 1)) ^ 2) k := by
  have hlt := h.lt hk
  have hpos : 1 ≤ k := by
    rw [Nat.one_le_iff_ne_zero]
    rintro rfl
    exact hb (by simpa using hk.one)
  -- the last squaring but one leaves the other root of one
  have hminus : b ^ 2 ^ (k - 1) = -1 := by
    have hone := hk.one
    rw [← Nat.sub_add_cancel hpos, pow_succ, pow_mul] at hone
    exact (sq_eq_one_iff.mp hone).resolve_left (hk.least (k - 1) (by omega))
  have hroot : ((z ^ 2 ^ (v - k - 1)) ^ 2) ^ 2 ^ (k - 1) = -1 := by
    rw [← pow_mul, ← pow_mul, ← pow_succ', ← pow_add, show v - k - 1 + (k - 1 + 1) = v - 1 by omega]
    exact h.root
  refine ⟨hpos, ?_, ?_, hroot⟩
  · rw [mul_pow, h.square, mul_assoc]
  · rw [mul_pow, hminus, hroot, neg_mul_neg, one_mul]

end TonelliShanks
