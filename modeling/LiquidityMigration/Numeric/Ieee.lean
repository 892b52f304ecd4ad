import LiquidityMigration.Lib.NearestEven
import LiquidityMigration.Numeric.Binary64

/- What is used of the rounding of a `Binary64`, and the rounding of the platform:
   to the nearest of 53 significant bits down to `2 ^ -1074`, the even one of two,
   with nothing finite from `2 ^ 1024` on.

   A binary64 number is a value the rounding keeps (`IsNumber`). `Lawful` lists what
   proofs use; `nearestEven_lawful` says that the platform's rounding is one. -/
namespace LiquidityMigration.Numeric
open Checks Nat

namespace Binary64

def IsNumber (b : Binary64) (v : ℚ) : Prop := b.nearest v = some v
  deriving Decidable

/-- A double that can be one: not finite, or a number of the format. -/
def IsDouble (b : Binary64) : F64 → Prop
  | .finite v => b.IsNumber v
  | .nonFinite => True

instance (b : Binary64) : ∀ x : F64, Decidable (b.IsDouble x)
  | .finite v => inferInstanceAs (Decidable (b.IsNumber v))
  | .nonFinite => inferInstanceAs (Decidable True)

/-- Rounding as IEEE 754 has it: zero is a number, the order is kept, and every number is a dyadic fraction of
    terms that can be stored. -/
structure Lawful (b : Binary64) : Prop where
  zero : b.IsNumber 0
  mono : ∀ {x y v w : ℚ}, x ≤ y → b.nearest x = some v → b.nearest y = some w → v ≤ w
  stored : ∀ {v : ℚ}, b.IsNumber v → Stored v
  dyadic : ∀ {v : ℚ}, b.IsNumber v → ∃ k : ℕ, v.den = 2 ^ k

section lawful
variable {b : Binary64} {x v : ℚ}

theorem toF64_eq_ok : toF64 b.nearest x = .ok v ↔ b.nearest x = some v ∧ (v = 0 → x = 0) := by
  unfold toF64
  cases h : b.nearest x with
  | none => simp
  | some w =>
    simp only [ne_eq, Option.some.injEq]
    split
    · next hok =>
      simp only [Except.ok.injEq]
      refine ⟨?_, fun h => h.1⟩
      intro heq
      subst heq
      exact ⟨rfl, fun hzero => hok.resolve_left (not_not.mpr hzero)⟩
    · next hbad =>
      simp only [reduceCtorEq, false_iff, not_and]
      intro heq
      subst heq
      obtain ⟨hzero, hx⟩ := not_or.mp hbad
      exact fun himp => hx (himp (not_not.mp hzero))

theorem IsNumber.toF64 (h : b.IsNumber v) : toF64 b.nearest v = .ok v := toF64_eq_ok.mpr ⟨h, id⟩

theorem Lawful.pos_iff (hb : b.Lawful) (h : Numeric.toF64 b.nearest x = .ok v) : 0 < v ↔ 0 < x := by
  obtain ⟨hnear, hzero⟩ := toF64_eq_ok.mp h
  refine ⟨?_, ?_⟩
  · intro hv
    by_contra hx
    exact absurd (hb.mono (not_lt.mp hx) hnear hb.zero) (not_le.mpr hv)
  · intro hx
    refine lt_of_le_of_ne (hb.mono hx.le hb.zero hnear) ?_
    intro heq
    exact hx.ne' (hzero heq.symm)

theorem Lawful.nonneg (hb : b.Lawful) (h : Numeric.toF64 b.nearest x = .ok v) (hx : 0 ≤ x) : 0 ≤ v :=
  hb.mono hx hb.zero (toF64_eq_ok.mp h).1

end lawful

theorem strip_spec (p fuel n : ℕ) : ∃ k, n = p ^ k * strip p fuel n := by
  induction fuel generalizing n with
  | zero => exact ⟨0, by simp [strip]⟩
  | succ fuel ih =>
    rw [strip]
    split
    · next hmod =>
      obtain ⟨k, hk⟩ := ih (n / p)
      refine ⟨k + 1, ?_⟩
      calc n = p * (n / p) := (Nat.mul_div_cancel' (Nat.dvd_of_mod_eq_zero hmod)).symm
        _ = p * (p ^ k * strip p fuel (n / p)) := by rw [← hk]
        _ = p ^ (k + 1) * strip p fuel (n / p) := by ring
    · exact ⟨0, by simp⟩

theorem not_dvd_strip {p fuel n : ℕ} (hp : 1 < p) (hn : 0 < n) (hfuel : n < 2 ^ fuel) : ¬ p ∣ strip p fuel n := by
  induction fuel generalizing n with
  | zero => omega
  | succ fuel ih =>
    rw [strip]
    split
    · next hmod =>
      have hle : n / p ≤ n / 2 := div_le_div_left hp (by decide)
      exact ih (div_pos (le_of_dvd hn (dvd_of_mod_eq_zero hmod)) (by omega)) (by omega)
    · next hmod => exact fun h => hmod (mod_eq_zero_of_dvd h)

theorem isDecimal_iff {x : Exact} : isDecimal x = true ↔ ∃ a b, x.den = 2 ^ a * 5 ^ b := by
  obtain ⟨a, ha⟩ := strip_spec 2 x.den.size x.den
  obtain ⟨b, hb⟩ := strip_spec 5 x.den.size (strip 2 x.den.size x.den)
  rw [isDecimal, decide_eq_true_eq]
  constructor
  · intro h
    rw [h, mul_one] at hb
    exact ⟨a, b, hb ▸ ha⟩
  · rintro ⟨i, j, hden⟩
    have hrest : strip 5 x.den.size (strip 2 x.den.size x.den) ∣ strip 2 x.den.size x.den := Dvd.intro_left _ hb.symm
    have hpos : 0 < strip 2 x.den.size x.den := pos_of_ne_zero fun h0 => x.den_nz (by rw [ha, h0, mul_zero])
    have hle : strip 2 x.den.size x.den ≤ x.den := le_of_dvd x.den_pos (Dvd.intro_left _ ha.symm)
    have htwo := not_dvd_strip (p := 2) (by decide) x.den_pos (lt_size_self x.den)
    have hfive := not_dvd_strip (p := 5) (by decide) hpos (hle.trans_lt (lt_size_self x.den))
    -- what is left has neither of the two factors that the denominator is made of
    have hcoprime : (strip 5 x.den.size (strip 2 x.den.size x.den)).Coprime (2 ^ i * 5 ^ j) := by
      apply Nat.Coprime.mul_right
      · exact ((Nat.Prime.coprime_iff_not_dvd prime_two).mpr fun h => htwo (h.trans hrest)).symm.pow_right i
      · exact ((Nat.Prime.coprime_iff_not_dvd prime_five).mpr hfive).symm.pow_right j
    refine hcoprime.eq_one_of_dvd ?_
    rw [← hden]
    exact hrest.trans (Dvd.intro_left _ ha.symm)

/-- 53 significant bits, none below `2 ^ -1074`. -/
def bits53 : GridRule where
  exponent m := max (m - 52) (-1074)
  mono := by
    intro m n h
    dsimp only
    omega
  slow := by
    intro m
    omega
  settles := by
    intro m h
    omega

def nearestEven : Binary64 where
  nearest x := if |bits53.nearest 2 x| < 2 ^ 1024 then some (bits53.nearest 2 x) else none
  shown := id
  shown_pos := fun _ h => h

section nearestEven
variable {x v : ℚ}

theorem nearestEven_eq_some : nearestEven.nearest x = some v ↔ |v| < 2 ^ 1024 ∧ bits53.nearest 2 x = v := by
  simp only [nearestEven]
  split
  · next h =>
    simp only [Option.some.injEq]
    refine ⟨?_, fun h => h.2⟩
    intro heq
    exact ⟨heq ▸ h, heq⟩
  · next h =>
    simp only [reduceCtorEq, false_iff, not_and]
    intro hv heq
    exact h (heq ▸ hv)

theorem mul_pow_of_multiple {k : ℤ} (n : ℕ) (h : v = k * ((2 : ℕ) : ℚ) ^ (-(n : ℤ))) : v * (2 ^ n : ℕ) = k := by
  rw [h, zpow_neg, zpow_natCast, mul_assoc, cast_pow, inv_mul_cancel₀ (by positivity), mul_one]

theorem natAbs_lt_of_mul {k : ℤ} {m n : ℕ} (hk : v * (2 ^ n : ℕ) = k) (hv : |v| < 2 ^ m) : k.natAbs < 2 ^ (m + n) := by
  have hk' : |(k : ℚ)| < (2 ^ (m + n) : ℕ) := by
    have hpos : (0 : ℚ) < ((2 : ℕ) : ℚ) ^ n := by positivity
    rw [← hk, abs_mul, cast_pow, cast_pow, abs_of_pos hpos, pow_add]
    exact mul_lt_mul_of_pos_right (by exact_mod_cast hv) hpos
  have hcast : ((k.natAbs : ℕ) : ℚ) < ((2 ^ (m + n) : ℕ) : ℚ) := by
    rw [cast_natAbs, Int.cast_abs]
    exact hk'
  exact_mod_cast hcast

theorem nearestEven_multiple (h : nearestEven.IsNumber v) : ∃ k : ℤ, v * (2 ^ 1074 : ℕ) = k := by
  obtain ⟨k, hk⟩ := @GridRule.nearest_multiple ℚ _ _ _ 2 bits53 v
  rw [(nearestEven_eq_some.mp h).2] at hk
  have hfine : ∃ k : ℤ, v = k * ((2 : ℕ) : ℚ) ^ (-1074 : ℤ) := by
    refine GridRule.multiple_of_le (by decide) ?_ ⟨k, hk⟩
    exact le_max_right _ _
  obtain ⟨n, hn⟩ := hfine
  exact ⟨n, mul_pow_of_multiple 1074 hn⟩

theorem den_dvd_of_mul {k : ℤ} {n : ℕ} (hk : v * (2 ^ n : ℕ) = k) : v.den ∣ 2 ^ n := by
  have hpos : ((2 ^ n : ℕ) : ℚ) ≠ 0 := Nat.cast_ne_zero.mpr (Nat.two_pow_pos n).ne'
  have hv : v = Rat.divInt k (2 ^ n : ℕ) := by
    rw [Rat.divInt_eq_div, Int.cast_natCast, eq_div_iff hpos, hk]
  have hdvd := Rat.den_dvd k (2 ^ n : ℕ)
  rw [← hv] at hdvd
  exact Int.natCast_dvd_natCast.mp hdvd

theorem nearestEven_lawful : nearestEven.Lawful where
  zero := by
    apply nearestEven_eq_some.mpr
    simp
  mono := by
    intro x y v w h hx hy
    obtain ⟨-, rfl⟩ := nearestEven_eq_some.mp hx
    obtain ⟨-, rfl⟩ := nearestEven_eq_some.mp hy
    exact bits53.nearest_mono (by decide) h
  stored := by
    intro v h
    obtain ⟨k, hk⟩ := nearestEven_multiple h
    refine stored_of_mul (Nat.two_pow_pos _) hk ?_ (by decide +kernel)
    exact (natAbs_lt_of_mul hk (nearestEven_eq_some.mp h).1).trans (by decide +kernel)
  dyadic := by
    intro v h
    obtain ⟨k, hk⟩ := nearestEven_multiple h
    obtain ⟨n, -, hn⟩ := (dvd_prime_pow prime_two).mp (den_dvd_of_mul hk)
    exact ⟨n, hn⟩

example : nearestEven.nearest (1 / 10) = some (3602879701896397 / 36028797018963968) := by decide +kernel

end nearestEven

end Binary64
end LiquidityMigration.Numeric
