import Mathlib

/- Exact financial values: reduced rationals. The stored form is numerator and denominator in decimal, each of at
   most `maxRatioDigits` digits; `validateStorage` checks that without printing where the bit lengths decide it
   (`validateStorage_ok`). The nearest binary64 comes in as a function `f64`; `toF64` refuses a projection that is
   not finite, or zero where the value is not. Sums are reduced where the denominator changes (`ExactSum`), products
   by cancelling across (`product`). -/
namespace LiquidityMigration.Numeric
open Int

abbrev Exact := ℚ

inductive ExactError where
  | invalidDecimal | inputTooLarge | exponentOutOfRange | nonFinite | divisionByZero | invalidStep
  | representationRange | invalidDenominator | invalidProvenance | invalidProjection
  deriving DecidableEq

def maxNumericDigits : Nat := 4096

def maxDecimalExponent : Nat := 4096

def maxRatioDigits : Nat := maxNumericDigits + maxDecimalExponent

def ExactError.toString : ExactError → String
  | .invalidDecimal => "invalid decimal number"
  | .inputTooLarge => "numeric input exceeds its bounded decimal or ratio size"
  | .exponentOutOfRange => s!"decimal exponent exceeds {maxDecimalExponent}"
  | .nonFinite => "a non-finite legacy number has no exact financial value"
  | .divisionByZero => "division by zero"
  | .invalidStep => "step must be positive"
  | .representationRange => "exact value is outside the requested representation"
  | .invalidDenominator => "rational denominator must be positive"
  | .invalidProvenance => "numeric provenance does not match the exact value"
  | .invalidProjection => "exact execution amounts do not match the compatibility projection"

/-- Unrecognized named assets remain named; absent currency remains unknown. -/
inductive AssetId where
  | named (name : String)
  | unknown
  deriving DecidableEq

def bits (n : Int) : Nat := n.natAbs.size

def decimalDigits (n : Int) : Nat := (Nat.toDigits 10 n.natAbs).length

def validateStorage (x : Exact) : Except ExactError Unit :=
  -- at most 3N bits means fewer than 10^N
  if max (bits x.num) (bits x.den) ≤ maxRatioDigits * 3 then .ok ()
  else if maxRatioDigits * 4 < bits x.num ∨ maxRatioDigits * 4 < bits x.den
      ∨ maxRatioDigits < decimalDigits x.num ∨ maxRatioDigits < decimalDigits x.den then .error .inputTooLarge
  else .ok ()

/-- The values whose numerator and denominator have at most `maxRatioDigits` digits. -/
def Stored (x : Exact) : Prop := x.num.natAbs < 10 ^ maxRatioDigits ∧ x.den < 10 ^ maxRatioDigits

theorem decimalDigits_le {n : Int} {w : Nat} (hw : 0 < w) : decimalDigits n ≤ w ↔ n.natAbs < 10 ^ w := by
  unfold decimalDigits
  exact Nat.length_toDigits_le_iff (by decide) hw

theorem maxRatioDigits_pos : 0 < maxRatioDigits := by decide

theorem lt_of_bits_le {n : Int} {w : Nat} (h : bits n ≤ w * 3) : n.natAbs < 10 ^ w := by
  calc n.natAbs < 2 ^ (w * 3) := Nat.size_le.mp h
    _ = 8 ^ w := by rw [Nat.mul_comm, Nat.pow_mul]
    _ ≤ 10 ^ w := Nat.pow_le_pow_left (by decide) w

theorem le_of_lt_bits {n : Int} {w : Nat} (h : w * 4 < bits n) : 10 ^ w ≤ n.natAbs := by
  calc 10 ^ w ≤ 16 ^ w := Nat.pow_le_pow_left (by decide) w
    _ = 2 ^ (w * 4) := by rw [Nat.mul_comm, Nat.pow_mul]
    _ ≤ n.natAbs := Nat.lt_size.mp h

theorem validateStorage_ok {x : Exact} : validateStorage x = .ok () ↔ Stored x := by
  have hnum := decimalDigits_le (n := x.num) maxRatioDigits_pos
  have hden := decimalDigits_le (n := x.den) maxRatioDigits_pos
  rw [natAbs_natCast] at hden
  unfold validateStorage Stored
  by_cases hshort : max (bits x.num) (bits x.den) ≤ maxRatioDigits * 3
  · rw [if_pos hshort]
    obtain ⟨h1, h2⟩ := max_le_iff.mp hshort
    have h2' := lt_of_bits_le h2
    rw [natAbs_natCast] at h2'
    exact ⟨fun _ => ⟨lt_of_bits_le h1, h2'⟩, fun _ => rfl⟩
  · rw [if_neg hshort]
    constructor
    · intro h
      split at h
      · cases h
      · next hcond =>
        simp only [not_or, not_lt] at hcond
        exact ⟨hnum.mp hcond.2.2.1, hden.mp hcond.2.2.2⟩
    · intro hst
      apply if_neg
      intro hcond
      obtain h | h | h | h := hcond
      · exact absurd hst.1 (not_lt.mpr (le_of_lt_bits h))
      · have := le_of_lt_bits h
        rw [natAbs_natCast] at this
        exact absurd hst.2 (not_lt.mpr this)
      · exact absurd (hnum.mpr hst.1) (not_le.mpr h)
      · exact absurd (hden.mpr hst.2) (not_le.mpr h)

theorem stored_of_mul {x : Exact} {a : ℤ} {b : ℕ} (hb : 0 < b) (h : x * b = a)
    (hnum : a.natAbs < 10 ^ maxRatioDigits) (hden : b < 10 ^ maxRatioDigits) : Stored x := by
  have hbz : (b : ℤ) ≠ 0 := natCast_ne_zero.mpr hb.ne'
  have hbq : (b : ℚ) ≠ 0 := Nat.cast_ne_zero.mpr hb.ne'
  have hx : x = Rat.divInt a b := by
    rw [Rat.divInt_eq_div, cast_natCast, eq_div_iff hbq, h]
  constructor
  · rcases eq_or_ne a 0 with ha | ha
    · have hzero : x = 0 := by rw [hx, ha, Rat.zero_divInt]
      rw [hzero]
      exact Nat.pow_pos (by decide)
    · have hdvd : x.num ∣ a := hx ▸ Rat.num_dvd a hbz
      exact (natAbs_le_of_dvd_ne_zero hdvd ha).trans_lt hnum
  · have hdvd : (x.den : ℤ) ∣ b := hx ▸ Rat.den_dvd a b
    exact (Nat.le_of_dvd hb (natCast_dvd_natCast.mp hdvd)).trans_lt hden

/-- `Exact::to_f64`, from the nearest binary64 where that is finite. -/
def toF64 (f64 : Exact → Option ℚ) (x : Exact) : Except ExactError ℚ :=
  match f64 x with
  | some v => if v ≠ 0 ∨ x = 0 then .ok v else .error .representationRange
  | none => .error .representationRange

def checkedDiv (x y : Exact) : Except ExactError Exact :=
  if y = 0 then .error .divisionByZero else .ok (x / y)

def Representable (f64 : Exact → Option ℚ) (x : Exact) : Prop := ∃ v, toF64 f64 x = .ok v

/-- A running sum, not reduced while the denominator stays the same. -/
structure ExactSum where
  numerator : ℤ
  denominator : ℤ
  positive : 0 < denominator

namespace ExactSum

def default : ExactSum := ⟨0, 1, by decide⟩

def addAssign (s : ExactSum) (rhs : Exact) : ExactSum :=
  if s.numerator = 0 then ⟨rhs.num, rhs.den, Int.natCast_pos.mpr rhs.den_pos⟩
  else if s.denominator = rhs.den then { s with numerator := s.numerator + rhs.num }
  else
    let current := Rat.divInt s.numerator s.denominator + rhs
    ⟨current.num, current.den, Int.natCast_pos.mpr current.den_pos⟩

def finish (s : ExactSum) : Exact := Rat.divInt s.numerator s.denominator

theorem finish_addAssign (s : ExactSum) (x : Exact) : (s.addAssign x).finish = s.finish + x := by
  unfold addAssign
  split
  · next hzero =>
    have hs : s.finish = 0 := by rw [finish, hzero, Rat.zero_divInt]
    rw [hs, zero_add]
    exact Rat.num_divInt_den x
  · split
    · next hden =>
      have hx : x = x.num / s.denominator := by rw [hden, cast_natCast, Rat.num_div_den]
      calc (finish { s with numerator := s.numerator + x.num } : ℚ)
          = (s.numerator + x.num) / s.denominator := by rw [finish, Rat.divInt_eq_div, cast_add]
        _ = s.numerator / s.denominator + x.num / s.denominator := add_div _ _ _
        _ = s.finish + x := by rw [← hx, finish, Rat.divInt_eq_div]
    · exact Rat.num_divInt_den _

theorem finish_foldl (xs : List Exact) (s : ExactSum) : (xs.foldl addAssign s).finish = s.finish + xs.sum := by
  induction xs generalizing s with
  | nil => exact (add_zero _).symm
  | cons x xs ih => rw [List.foldl_cons, ih, finish_addAssign, List.sum_cons, add_assoc]

end ExactSum

/-- The numerator and the denominator `Exact::product` puts together without reducing them. -/
def product (x y : Exact) : ℤ × ℤ :=
  let ad := Int.gcd x.num y.den
  let bc := Int.gcd x.den y.num
  (x.num.tdiv ad * y.num.tdiv bc, (x.den : ℤ).tdiv bc * (y.den : ℤ).tdiv ad)

/-- `r` is the value in lowest terms, with a positive denominator. -/
def LowestTerms (r : ℤ × ℤ) (x : Exact) : Prop := 0 < r.2 ∧ Int.gcd r.1 r.2 = 1 ∧ (r.1 : ℚ) / r.2 = x

theorem cancel_gcd (a : ℤ) {d : ℤ} (hd : 0 < d) : ∃ g a' d' : ℤ, Int.gcd a d = g ∧ g ≠ 0 ∧ a = a' * g ∧ d = d' * g ∧
    0 < d' ∧ IsCoprime a' d' := by
  have hg : 0 < Int.gcd a d := Int.gcd_pos_of_ne_zero_right a hd.ne'
  have hleft := Int.ediv_mul_cancel (Int.gcd_dvd_left a d)
  have hright := Int.ediv_mul_cancel (Int.gcd_dvd_right a d)
  refine ⟨_, _, _, rfl, Int.natCast_ne_zero.mpr hg.ne', hleft.symm, hright.symm, ?_, ?_⟩
  · rw [← hright] at hd
    exact pos_of_mul_pos_left hd (Int.natCast_nonneg _)
  · rw [Int.isCoprime_iff_gcd_eq_one]
    exact gcd_ediv_gcd_ediv_gcd hg

theorem product_lowestTerms (x y : Exact) : LowestTerms (product x y) (x * y) := by
  have hx := Rat.isCoprime_num_den x
  have hy := Rat.isCoprime_num_den y
  obtain ⟨g, a, d, hg, hg0, ha, hd, hdpos, had⟩ := cancel_gcd x.num (natCast_pos.mpr y.den_pos)
  obtain ⟨k, c, b, hk, hk0, hc, hb, hbpos, hcb⟩ := cancel_gcd y.num (natCast_pos.mpr x.den_pos)
  have hproduct : product x y = (a * c, b * d) := by
    unfold product
    dsimp only
    rw [Int.gcd_comm x.den, hg, hk, ha, hb, hc, hd]
    simp only [mul_tdiv_cancel _ hg0, mul_tdiv_cancel _ hk0]
  rw [hproduct]
  refine ⟨mul_pos hbpos hdpos, ?_, ?_⟩
  · -- the numerators share no factor with their own denominators, and none is left with the other's
    rw [ha, hb] at hx
    rw [hc, hd] at hy
    have hab : IsCoprime a b := hx.of_mul_left_left.of_mul_right_left
    have hcd : IsCoprime c d := hy.of_mul_left_left.of_mul_right_left
    rw [← isCoprime_iff_gcd_eq_one]
    exact (hab.mul_right had).mul_left (hcb.mul_right hcd)
  · have hxnum : (x.num : ℚ) = a * g := by rw [ha, cast_mul]
    have hxden : (x.den : ℚ) = b * k := by rw [← cast_natCast, hb, cast_mul]
    have hynum : (y.num : ℚ) = c * k := by rw [hc, cast_mul]
    have hyden : (y.den : ℚ) = d * g := by rw [← cast_natCast, hd, cast_mul]
    have hg0 : (g : ℚ) ≠ 0 := cast_ne_zero.mpr hg0
    have hk0 : (k : ℚ) ≠ 0 := cast_ne_zero.mpr hk0
    rw [← Rat.num_div_den x, ← Rat.num_div_den y, hxnum, hxden, hynum, hyden]
    push_cast
    field_simp

/-- **Exact summation.** The sum read off after any number of values is their sum, and the product of two values comes
out in lowest terms with a positive denominator. -/
theorem exact_summation :
    (∀ (xs : List Exact) (n : Nat), ((xs.take n).foldl ExactSum.addAssign .default).finish = (xs.take n).sum) ∧
    ∀ x y : Exact, LowestTerms (product x y) (x * y) := by
  refine ⟨fun xs n => ?_, product_lowestTerms⟩
  rw [ExactSum.finish_foldl]
  exact zero_add _

end LiquidityMigration.Numeric
