import LiquidityMigration.Lib.Decimal
import LiquidityMigration.Orders.DecimalWire

/- The place of a price's first digit, read off its printed text: `magnitude` succeeds exactly on the prices that
   have a text, with `Int.log 10` (`magnitude_eq_ok`). A printed price is `n / 10 ^ scale` with the digits of `n`, so
   its first digit has the place `digits - 1 - scale`, wherever the point falls (`magnitudeOf_scaledText`). -/
namespace LiquidityMigration.Orders
open Numeric Checks List Nat

theorem factors_spec (p fuel n : Nat) : n = p ^ (factors p fuel n).1 * (factors p fuel n).2 := by
  induction fuel generalizing n with
  | zero => simp [factors]
  | succ fuel ih =>
    rw [factors]
    split
    · next hdiv =>
      have hn : n = p * (n / p) := (Nat.mul_div_cancel' (Nat.dvd_of_mod_eq_zero hdiv)).symm
      calc n = p * (n / p) := hn
        _ = p * (p ^ (factors p fuel (n / p)).1 * (factors p fuel (n / p)).2) := by rw [← ih (n / p)]
        _ = p ^ ((factors p fuel (n / p)).1 + 1) * (factors p fuel (n / p)).2 := by ring
    · simp

variable {text : List Char} {value : Exact}

theorem toDecimalString_eq_some {x : Exact} (h : toDecimalString x = some text) :
    ∃ (n : ℤ) (scale : ℕ), x = n / 10 ^ scale ∧ text = scaledText n scale := by
  unfold toDecimalString at h
  dsimp only at h
  split at h
  · cases h
  · next hrest =>
    rw [not_not] at hrest
    have htwos := factors_spec 2 x.den.size x.den
    have hfives := factors_spec 5 x.den.size (factors 2 x.den.size x.den).2
    generalize hx2 : factors 2 x.den.size x.den = twos at *
    generalize hx5 : factors 5 x.den.size twos.2 = fives at *
    rw [hrest, mul_one] at hfives
    rw [hfives] at htwos
    refine ⟨_, _, ?_, (Option.some.inj h).symm⟩
    have h2 : (2 : ℚ) ^ max twos.1 fives.1 = 2 ^ (max twos.1 fives.1 - twos.1) * 2 ^ twos.1 := by
      rw [← pow_add, Nat.sub_add_cancel (le_max_left _ _)]
    have h5 : (5 : ℚ) ^ max twos.1 fives.1 = 5 ^ (max twos.1 fives.1 - fives.1) * 5 ^ fives.1 := by
      rw [← pow_add, Nat.sub_add_cancel (le_max_right _ _)]
    have h10 : (10 : ℚ) ^ max twos.1 fives.1 = 2 ^ max twos.1 fives.1 * 5 ^ max twos.1 fives.1 := by
      rw [← mul_pow]
      norm_num
    have hden : (x.den : ℚ) = 2 ^ twos.1 * 5 ^ fives.1 := by exact_mod_cast htwos
    have hx : x = x.num / x.den := (Rat.num_div_den x).symm
    rw [h10, h2, h5]
    conv_lhs => rw [hx, hden]
    push_cast
    field_simp

theorem pow_le_of_toDigits {n : Nat} (hn : 0 < n) : 10 ^ ((Nat.toDigits 10 n).length - 1) ≤ n := by
  rcases Nat.eq_zero_or_pos ((Nat.toDigits 10 n).length - 1) with hone | hmore
  · rw [hone]
    exact hn
  · by_contra hlt
    have hle := (Nat.length_toDigits_le_iff (by decide) hmore).mpr (not_le.mp hlt)
    omega

theorem lt_pow_toDigits (n : Nat) : n < 10 ^ (Nat.toDigits 10 n).length :=
  (length_toDigits_le_iff (by decide) (length_pos_iff.mpr toDigits_ne_nil)).mp (le_refl _)

theorem toDigits_eq_cons {n : Nat} (hn : 0 < n) : ∃ d ds, Nat.toDigits 10 n = d :: ds ∧ d ≠ '0' := by
  obtain ⟨d, ds, hdigits⟩ := exists_cons_of_ne_nil (toDigits_ne_nil (b := 10) (n := n))
  refine ⟨d, ds, hdigits, ?_⟩
  intro hzero
  apply Decimal.not_leadingZero_toDigits n
  refine ⟨by rw [hdigits, hzero]; rfl, ?_⟩
  by_contra hlength
  -- a single zero is the print of zero
  have hsmall : n < 10 := by
    have := (length_toDigits_le_iff (b := 10) (k := 1) (n := n) (by decide) (by decide)).mp (not_lt.mp hlength)
    simpa using this
  rw [toDigits_of_lt_base hsmall] at hdigits
  have hd : digitChar n = '0' := (cons.inj hdigits).1.trans hzero
  have := digitChar_eq_zero.mp hd
  omega

theorem dot_not_mem_toDigits (n : Nat) : '.' ∉ Nat.toDigits 10 n :=
  fun h => absurd (Decimal.isDigit_toDigits n '.' h) (by decide)

theorem magnitude_eq (value : Exact) : magnitude value = decimalWire value >>= magnitudeOf := rfl

theorem splitOnce_eq_none {cs : List Char} (h : '.' ∉ cs) : Text.splitOnce '.' cs = none := by
  cases hcut : Text.splitOnce '.' cs with
  | none => rfl
  | some parts =>
    obtain ⟨-, rfl⟩ := Text.splitOnce_eq_some.mp hcut
    exact absurd (by simp) h

theorem findIdx?_zeros (z : Nat) {d : Char} (hd : d ≠ '0') (ds : List Char) :
    (List.replicate z '0' ++ d :: ds).findIdx? (fun c => c ≠ '0') = some z := by
  induction z with
  | zero => simp [findIdx?_cons, hd]
  | succ z ih =>
    rw [replicate_succ, cons_append, findIdx?_cons, ih]
    simp

theorem magnitudeOf_scaledText {n : Nat} (hn : 0 < n) (scale : Nat) :
    magnitudeOf (scaledText n scale) = .ok (((Nat.toDigits 10 n).length : Int) - 1 - scale) := by
  obtain ⟨d, ds, hdigits, hd⟩ := toDigits_eq_cons hn
  have hdot := dot_not_mem_toDigits n
  unfold scaledText
  rw [if_neg (by omega : ¬ ((n : ℤ) < 0)), Int.natAbs_natCast]
  dsimp only
  rw [nil_append, nil_append, nil_append]
  split
  · next hscale =>
    -- no point: all digits stand in front
    have hne : toDigits 10 n ≠ ['0'] := by
      rw [hdigits]
      intro h
      exact hd (cons.inj h).1
    unfold magnitudeOf
    rw [splitOnce_eq_none hdot, Option.getD_none, if_pos hne, hscale]
    simp
  · next hscale =>
    split
    · next hfraction =>
      -- the point stands in front of the digits
      have hcut : Text.splitOnce '.' (['0', '.'] ++ replicate (scale - (toDigits 10 n).length) '0' ++
          toDigits 10 n) =
            some (['0'], replicate (scale - (toDigits 10 n).length) '0' ++ toDigits 10 n) :=
        Text.splitOnce_append (a := ['0']) _ (by decide)
      unfold magnitudeOf
      rw [hcut, Option.getD_some, if_neg (by simp), hdigits, findIdx?_zeros _ hd]
      rw [hdigits] at hfraction
      simp only [orError, bind, Except.bind, Except.ok.injEq]
      omega
    · next hwhole =>
      -- the point falls among the digits
      have hfront : '.' ∉ (toDigits 10 n).take ((toDigits 10 n).length - scale) :=
        fun h => hdot (mem_of_mem_take h)
      have hne : (toDigits 10 n).take ((toDigits 10 n).length - scale) ≠ ['0'] := by
        obtain ⟨k, hk⟩ : ∃ k, (toDigits 10 n).length - scale = k + 1 := ⟨_, (succ_pred_eq_of_pos (by omega)).symm⟩
        rw [hk, hdigits, take_succ_cons]
        intro h
        exact hd (cons.inj h).1
      unfold magnitudeOf
      rw [Text.splitOnce_append _ hfront, Option.getD_some, if_pos hne, length_take]
      congr 1
      omega

theorem log_scaled {n : Nat} (hn : 0 < n) (scale : Nat) :
    Int.log 10 ((n : ℚ) / 10 ^ scale) = ((Nat.toDigits 10 n).length : Int) - 1 - scale := by
  set digits := toDigits 10 n
  have hlength : 0 < digits.length := length_pos_iff.mpr toDigits_ne_nil
  have hpow : (0 : ℚ) < 10 ^ scale := by positivity
  have hpos : (0 : ℚ) < (n : ℚ) / 10 ^ scale := div_pos (by exact_mod_cast hn) hpow
  have hlow : (10 : ℚ) ^ (digits.length - 1) ≤ n := by exact_mod_cast pow_le_of_toDigits hn
  have hhigh : (n : ℚ) < 10 ^ digits.length := by exact_mod_cast lt_pow_toDigits n
  have hzlow : (10 : ℚ) ^ ((digits.length : Int) - 1 - scale) =
      10 ^ (digits.length - 1) / 10 ^ scale := by
    rw [zpow_sub₀ (by norm_num), zpow_natCast]
    congr 1
    rw [← zpow_natCast]
    congr 1
    omega
  have hzhigh : (10 : ℚ) ^ ((digits.length : Int) - 1 - scale + 1) =
      10 ^ digits.length / 10 ^ scale := by
    rw [show (digits.length : Int) - 1 - scale + 1 = (digits.length : Int) - scale by omega,
      zpow_sub₀ (by norm_num), zpow_natCast, zpow_natCast]
  have hge : (digits.length : Int) - 1 - scale ≤ Int.log 10 ((n : ℚ) / 10 ^ scale) := by
    apply (Int.zpow_le_iff_le_log (by decide) hpos).mp
    push_cast
    rw [hzlow]
    exact div_le_div_of_nonneg_right hlow hpow.le
  have hlt : Int.log 10 ((n : ℚ) / 10 ^ scale) < (digits.length : Int) - 1 - scale + 1 := by
    apply (Int.lt_zpow_iff_log_lt (by decide) hpos).mp
    push_cast
    rw [hzhigh]
    exact div_lt_div_of_pos_right hhigh hpow
  omega

theorem decimalWire_eq_ok : decimalWire value = .ok text ↔
    validateStorage value = .ok () ∧ 0 < value ∧ toDecimalString value = some text := by
  simp only [decimalWire, numeric, ok_iff]

theorem magnitude_of_wire (h : decimalWire value = .ok text) : magnitude value = .ok (Int.log 10 value) := by
  obtain ⟨-, hpos, htext⟩ := decimalWire_eq_ok.mp h
  obtain ⟨z, scale, rfl, rfl⟩ := toDecimalString_eq_some htext
  have hz : 0 < z := by
    have hpow : (0 : ℚ) < 10 ^ scale := by positivity
    have := (div_pos_iff_of_pos_right hpow).mp hpos
    exact_mod_cast this
  obtain ⟨n, rfl⟩ := Int.eq_ofNat_of_zero_le hz.le
  have hn : 0 < n := by exact_mod_cast hz
  have hlog := log_scaled hn scale
  rw [magnitude_eq, h]
  show magnitudeOf (scaledText n scale) = _
  rw [magnitudeOf_scaledText hn, ← hlog]
  simp

theorem magnitude_eq_ok {m : Int} :
    magnitude value = .ok m ↔ (∃ text, decimalWire value = .ok text) ∧ m = Int.log 10 value := by
  constructor
  · intro h
    have hwire : ∃ text, decimalWire value = .ok text := by
      rw [magnitude_eq, bind_eq_ok] at h
      obtain ⟨text, htext, -⟩ := h
      exact ⟨text, htext⟩
    obtain ⟨text, htext⟩ := hwire
    rw [magnitude_of_wire htext] at h
    exact ⟨⟨text, htext⟩, (Except.ok.inj h).symm⟩
  · intro h
    obtain ⟨⟨text, htext⟩, rfl⟩ := h
    exact magnitude_of_wire htext

end LiquidityMigration.Orders
