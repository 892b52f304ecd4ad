import LiquidityMigration.Orders.DecimalText

/- The stored form of an exact value: the texts of its numerator and of its denominator. A value has one exactly
   where `validateStorage` accepts it, which decides by bit lengths where it can, and it is read back
   (`fromRatio_serialize`). Every value that is read has one (`stored_of_parseDecimal`, `stored_binary64`), and the
   bits of a binary64 are read as the number they encode (`fromLegacyBits_spec`). -/
namespace LiquidityMigration.Orders
open Numeric Checks List Nat Int Except

def intText (n : Int) : List Char := (if n < 0 then ['-'] else []) ++ Nat.toDigits 10 n.natAbs

/-- `Serialize for Exact`: the fields of the stored ratio. -/
def serialize (x : Exact) : Except ExactError (List Char × List Char) :=
  if maxRatioDigits < ((intText x.num).dropWhile (fun c => c = '-')).length ∨
      maxRatioDigits < (intText x.den).length then .error .inputTooLarge
  else .ok (intText x.num, intText x.den)

def parseInteger (text : List Char) : Except ExactError Int :=
  let digits := if text.head? = some '-' then text.tail else text
  if maxRatioDigits < Text.byteLength digits then .error .inputTooLarge
  else if digits = [] ∨ ¬ (∀ c ∈ digits, c.isDigit = true) then .error .invalidDecimal
  else .ok (if text.head? = some '-' then -(Nat.ofDigitChars 10 digits 0) else Nat.ofDigitChars 10 digits 0)

/-- `Exact::from_ratio`, which is also `Deserialize for Exact`. -/
def fromRatio (numerator denominator : List Char) : Except ExactError Exact := do
  let n ← parseInteger numerator
  let d ← parseInteger denominator
  require (0 < d) .invalidDenominator
  .ok (Rat.divInt n d)

theorem length_digits (n : Int) : ((intText n).dropWhile (fun c => c = '-')).length = decimalDigits n := by
  have hdigits : (toDigits 10 n.natAbs).dropWhile (fun c => c = '-') = toDigits 10 n.natAbs := by
    cases h : toDigits 10 n.natAbs with
    | nil => rfl
    | cons c cs =>
      have hc : c ≠ '-' := by
        rintro rfl
        exact Decimal.dash_not_mem_toDigits _ (h ▸ mem_cons_self)
      rw [dropWhile_cons_of_neg (by simpa using hc)]
  unfold intText
  split
  · rw [singleton_append, dropWhile_cons_of_pos (by simp), hdigits]
    rfl
  · rw [nil_append, hdigits]
    rfl

theorem serialize_eq_ok {x : Exact} {n d : List Char} :
    serialize x = .ok (n, d) ↔ Stored x ∧ n = intText x.num ∧ d = intText x.den := by
  have hden : (intText x.den).length = decimalDigits x.den := by
    rw [intText, if_neg (by omega)]
    rfl
  have hlimits : ¬ (maxRatioDigits < decimalDigits x.num ∨ maxRatioDigits < decimalDigits x.den) ↔ Stored x := by
    rw [not_or, not_lt, not_lt, decimalDigits_le maxRatioDigits_pos, decimalDigits_le maxRatioDigits_pos]
    rfl
  rw [serialize, length_digits, hden]
  split
  · next h =>
    have hnot : ¬ Stored x := fun hstored => hlimits.mpr hstored h
    simp [hnot]
  · next h => simp [hlimits.mp h, eq_comm]

theorem parseInteger_intText {n : Int} (h : decimalDigits n ≤ maxRatioDigits) : parseInteger (intText n) = .ok n := by
  have hall := Decimal.isDigit_toDigits n.natAbs
  have hlength : ¬ maxRatioDigits < Text.byteLength (toDigits 10 n.natAbs) := by
    rw [Text.byteLength_digits hall]
    exact not_lt.mpr h
  have hvalid : ¬ (toDigits 10 n.natAbs = [] ∨ ¬ ∀ c ∈ toDigits 10 n.natAbs, c.isDigit = true) :=
    not_or.mpr ⟨toDigits_ne_nil, not_not.mpr hall⟩
  by_cases hneg : n < 0
  · simp only [parseInteger, intText, if_pos hneg, singleton_append, List.head?_cons, if_true, tail_cons,
      hlength, hvalid, if_false, ofDigitChars_ten_toDigits, ok.injEq]
    omega
  · have hhead : (toDigits 10 n.natAbs).head? ≠ some '-' :=
      fun hd => Decimal.dash_not_mem_toDigits _ (mem_of_mem_head? hd)
    simp only [parseInteger, intText, if_neg hneg, nil_append, hhead, hlength, hvalid, if_false,
      ofDigitChars_ten_toDigits, ok.injEq]
    omega

theorem fromRatio_serialize {x : Exact} {n d : List Char} (h : serialize x = .ok (n, d)) : fromRatio n d = .ok x := by
  obtain ⟨⟨hnum, hden⟩, rfl, rfl⟩ := serialize_eq_ok.mp h
  simp only [fromRatio, ok_iff]
  refine ⟨x.num, parseInteger_intText ((decimalDigits_le maxRatioDigits_pos).mpr hnum), x.den,
    parseInteger_intText ((decimalDigits_le maxRatioDigits_pos).mpr hden), ?_, Rat.num_divInt_den x⟩
  exact_mod_cast x.den_pos

theorem stored_of_parseDecimal {text : List Char} {x : Exact} (h : parseDecimal text = .ok x) : Stored x := by
  obtain ⟨t, -, hwithin, rfl⟩ := parseDecimal_eq_ok.mp h
  have hcoefficient : (t.sign.apply (ofDigitChars 10 (t.whole ++ t.fraction.getD []) 0)).natAbs <
      10 ^ maxNumericDigits := by
    have hlt := (Decimal.ofDigitChars_lt t.digits).trans_le (Nat.pow_le_pow_right (by decide) hwithin.digits)
    unfold Sign.apply
    split <;> omega
  generalize hc : t.sign.apply (ofDigitChars 10 (t.whole ++ t.fraction.getD []) 0) = c at hcoefficient
  have hpower := hwithin.power
  rw [DecimalText.value, hc]
  rcases Int.eq_nat_or_neg t.power with ⟨n, hn | hn⟩
  all_goals rw [hn] at hpower ⊢
  · refine stored_of_mul (a := c * 10 ^ n) (b := 1) one_pos (by push_cast; rw [zpow_natCast, mul_one]) ?_ ?_
    · rw [Int.natAbs_mul, Int.natAbs_pow, maxRatioDigits, pow_add]
      have hscale : 10 ^ n ≤ 10 ^ maxDecimalExponent := Nat.pow_le_pow_right (by decide) (by simpa using hpower)
      exact Nat.mul_lt_mul_of_lt_of_le hcoefficient hscale (Nat.pow_pos (by decide))
    · exact one_lt_pow maxRatioDigits_pos.ne' (by decide)
  · refine stored_of_mul (a := c) (b := 10 ^ n) (by positivity) ?_ ?_ ?_
    · push_cast
      rw [zpow_neg, zpow_natCast, inv_mul_cancel_right₀ (by positivity)]
    · exact hcoefficient.trans_le (Nat.pow_le_pow_right (by decide) (by decide))
    · have hle : n ≤ maxDecimalExponent := by simpa using hpower
      exact Nat.pow_lt_pow_right (by decide) (hle.trans_lt (by decide))

variable (bits : UInt64)

def encodedExponent : ℕ := bits.toNat / 2 ^ 52 % 2 ^ 11

def fraction : ℕ := bits.toNat % 2 ^ 52

def signBit : ℕ := bits.toNat / 2 ^ 63

def binary64 : F64 :=
  if encodedExponent bits = 0x7ff then .nonFinite
  else .finite ((-1) ^ signBit bits *
    if encodedExponent bits = 0 then (fraction bits : ℚ) / 2 ^ 52 * 2 ^ (-1022 : ℤ)
    else (1 + (fraction bits : ℚ) / 2 ^ 52) * 2 ^ ((encodedExponent bits : ℤ) - 1023))

/-- `from_legacy_f64`: the mantissa with its hidden bit. -/
def mantissa : ℕ := fraction bits + if encodedExponent bits = 0 then 0 else 2 ^ 52

/-- `from_legacy_f64`: the exponent of the mantissa. -/
def exponent : ℤ := if encodedExponent bits = 0 then -1074 else encodedExponent bits - 1023 - 52

/-- `Exact::from_legacy_f64`, on the bits: the numerator and the denominator. Shifts and masks are quotients and
remainders here; `factors 2` counts the trailing zeros and shifts them out. -/
def fromLegacyBits : Except ExactError (Int × Nat) :=
  if encodedExponent bits = 0x7ff then .error .nonFinite
  else if mantissa bits = 0 then .ok (0, 1)
  else
    let shifted := factors 2 64 (mantissa bits)
    let power := exponent bits + shifted.1
    let numerator : Int := if signBit bits = 0 then shifted.2 else -shifted.2
    if 0 ≤ power then .ok (numerator * 2 ^ power.natAbs, 1) else .ok (numerator, 2 ^ power.natAbs)

section Bits
variable {bits : UInt64}

theorem binary64_eq (h : encodedExponent bits ≠ 0x7ff) :
    binary64 bits = .finite ((-1) ^ signBit bits * (mantissa bits * 2 ^ exponent bits)) := by
  have hshift (k : ℤ) : (2 : ℚ) ^ (k - 52) = 2 ^ k / 2 ^ 52 := by
    rw [zpow_sub₀ two_ne_zero]
    norm_cast
  rw [binary64, if_neg h, mantissa, exponent]
  congr 2
  split
  · rw [show (-1074 : ℤ) = -1022 - 52 by norm_num, hshift, add_zero, div_mul_eq_mul_div, mul_div_assoc]
  · rw [hshift]
    generalize (2 : ℚ) ^ ((encodedExponent bits : ℤ) - 1023) = unit
    push_cast
    field_simp
    ring

theorem mantissa_lt (bits : UInt64) : mantissa bits < 2 ^ 53 := by
  have : bits.toNat % 2 ^ 52 < 2 ^ 52 := mod_lt _ (by positivity)
  unfold mantissa fraction
  split <;> omega

theorem signBit_cases (bits : UInt64) : signBit bits = 0 ∨ signBit bits = 1 := by
  have := bits.toNat_lt
  unfold signBit
  omega

theorem coprime_shifted (h : mantissa bits ≠ 0) (j : ℕ) : (factors 2 64 (mantissa bits)).2.Coprime (2 ^ j) := by
  have hlt : mantissa bits < 2 ^ 64 := (mantissa_lt bits).trans (by norm_num)
  have hodd := Binary64.not_dvd_strip (p := 2) (by decide) (pos_of_ne_zero h) hlt
  rw [← factors_rest] at hodd
  exact (((Nat.Prime.coprime_iff_not_dvd prime_two).mpr hodd).symm).pow_right j

theorem ratio_eq (numerator power : ℤ) {n : ℤ} {d : ℕ}
    (h : (if 0 ≤ power then .ok (numerator * 2 ^ power.natAbs, 1) else .ok (numerator, 2 ^ power.natAbs)) =
      (Except.ok (n, d) : Except ExactError (Int × Nat))) :
    (n : Exact) / d = numerator * 2 ^ power ∧ 0 < d ∧ (d = 1 ∨ n = numerator ∧ ∃ j, d = 2 ^ j) := by
  split at h
  · next hp =>
    obtain ⟨j, rfl⟩ := eq_ofNat_of_zero_le hp
    cases h
    exact ⟨by simp, one_pos, .inl rfl⟩
  · next hp =>
    obtain ⟨j, hj⟩ := eq_ofNat_of_zero_le (show 0 ≤ -power by omega)
    obtain rfl : power = -j := by omega
    cases h
    exact ⟨by simp [div_eq_mul_inv], by positivity, .inr ⟨rfl, _, rfl⟩⟩

/-- **The bits are read as the number they encode**, in lowest terms. -/
theorem fromLegacyBits_spec (bits : UInt64) :
    (fromLegacyBits bits).map (fun ratio => (ratio.1 : Exact) / ratio.2) = fromLegacyF64 (binary64 bits) ∧
      ∀ n d, fromLegacyBits bits = .ok (n, d) → 0 < d ∧ n.natAbs.Coprime d := by
  unfold fromLegacyBits
  by_cases hfinite : encodedExponent bits = 0x7ff
  · rw [if_pos hfinite, binary64, if_pos hfinite]
    exact ⟨rfl, nofun⟩
  · rw [if_neg hfinite, binary64_eq hfinite]
    by_cases hzero : mantissa bits = 0
    · rw [if_pos hzero, hzero]
      refine ⟨by simp [fromLegacyF64], ?_⟩
      rintro n d ⟨⟩
      exact ⟨one_pos, coprime_one_right 0⟩
    · rw [if_neg hzero]
      dsimp only
      generalize hk : (factors 2 64 (mantissa bits)).1 = k
      generalize hr : (factors 2 64 (mantissa bits)).2 = r
      have hspec := factors_spec 2 64 (mantissa bits)
      rw [hk, hr] at hspec
      have hsigned : ((if signBit bits = 0 then (r : ℤ) else -r : ℤ) : ℚ) = (-1) ^ signBit bits * r := by
        obtain h | h := signBit_cases bits <;> simp [h]
      obtain ⟨⟨n, d⟩, hratio⟩ : ∃ ratio, (if 0 ≤ exponent bits + k then
          .ok ((if signBit bits = 0 then (r : ℤ) else -r) * 2 ^ (exponent bits + k).natAbs, 1)
          else .ok (if signBit bits = 0 then (r : ℤ) else -r, 2 ^ (exponent bits + k).natAbs)) =
          (ok ratio : Except ExactError (Int × Nat)) := by
        split <;> exact ⟨_, rfl⟩
      obtain ⟨hvalue, hpos, hterms⟩ := ratio_eq _ _ hratio
      rw [hratio]
      constructor
      · simp only [Except.map, fromLegacyF64, Except.ok.injEq]
        rw [hvalue, hsigned, hspec, zpow_add₀ two_ne_zero, zpow_natCast]
        push_cast
        ring
      · rintro _ _ ⟨⟩
        refine ⟨hpos, ?_⟩
        obtain rfl | ⟨rfl, j, rfl⟩ := hterms
        · exact coprime_one_right _
        · have habs : (if signBit bits = 0 then (r : ℤ) else -r).natAbs = r := by
            split <;> simp
          rw [habs, ← hr]
          exact coprime_shifted hzero j

theorem stored_binary64 {x : Exact} (h : fromLegacyF64 (binary64 bits) = .ok x) : Stored x := by
  by_cases hfinite : encodedExponent bits = 0x7ff
  · rw [binary64, if_pos hfinite] at h
    cases h
  · rw [binary64_eq hfinite] at h
    cases h
    have hlt : encodedExponent bits < 2 ^ 11 := mod_lt _ (by positivity)
    obtain ⟨j, least, hexponent, hj, hleast⟩ :
        ∃ j least : ℕ, exponent bits = j - least ∧ 53 + j ≤ maxRatioDigits ∧ least ≤ maxRatioDigits := by
      have hroom : 3000 ≤ maxRatioDigits := by decide
      unfold exponent
      split
      · exact ⟨0, 1074, by norm_num, by omega, by omega⟩
      · exact ⟨encodedExponent bits, 1075, by omega, by omega, by omega⟩
    have hlimit : 2 ^ maxRatioDigits < 10 ^ maxRatioDigits := Nat.pow_lt_pow_left (by decide) (by decide)
    -- a whole number of the least units
    refine stored_of_mul (a := (-1) ^ signBit bits * (mantissa bits * 2 ^ j : ℕ)) (b := 2 ^ least)
      (by positivity) ?_ ?_ ?_
    · rw [hexponent, zpow_sub₀ two_ne_zero, zpow_natCast, zpow_natCast]
      push_cast
      field_simp
    · rw [natAbs_mul, natAbs_pow, natAbs_neg, natAbs_one, one_pow, one_mul, natAbs_natCast]
      calc mantissa bits * 2 ^ j < 2 ^ 53 * 2 ^ j := mul_lt_mul_of_pos_right (mantissa_lt bits) (by positivity)
        _ = 2 ^ (53 + j) := by rw [pow_add]
        _ ≤ 2 ^ maxRatioDigits := Nat.pow_le_pow_right (by decide) hj
        _ < 10 ^ maxRatioDigits := hlimit
    · exact (Nat.pow_le_pow_right (by decide) hleast).trans_lt hlimit

end Bits

/-- **Stored ratios**: the quick test on sizes decides whether there is a stored form, the stored form is read
back, every value that is read has one, and the bits of a binary64 are read as the number they encode. -/
theorem stored_ratio_exact (x : Exact) (bits : UInt64) :
    (validateStorage x = .ok () ↔ ∃ n d, serialize x = .ok (n, d)) ∧
    (∀ n d, serialize x = .ok (n, d) → fromRatio n d = .ok x) ∧
    (∀ text, parseDecimal text = .ok x → validateStorage x = .ok ()) ∧
    (fromLegacyF64 (binary64 bits) = .ok x → validateStorage x = .ok ()) ∧
    (fromLegacyBits bits).map (fun ratio => (ratio.1 : Exact) / ratio.2) = fromLegacyF64 (binary64 bits) ∧
    (fromLegacyBits bits = .error .nonFinite ↔ encodedExponent bits = 0x7ff) ∧
    ∀ n d, fromLegacyBits bits = .ok (n, d) → 0 < d ∧ n.natAbs.Coprime d := by
  obtain ⟨hvalue, hterms⟩ := fromLegacyBits_spec bits
  refine ⟨?_, fun n d => fromRatio_serialize, fun text h => validateStorage_ok.mpr (stored_of_parseDecimal h),
    fun h => validateStorage_ok.mpr (stored_binary64 h), hvalue, ?_, hterms⟩
  · simp only [validateStorage_ok, serialize_eq_ok]
    exact ⟨fun h => ⟨_, _, h, rfl, rfl⟩, fun ⟨_, _, h, _⟩ => h⟩
  · unfold fromLegacyBits
    split
    · next h => simp [h]
    · next h =>
      simp only [h, iff_false]
      split
      · nofun
      · split <;> nofun

end LiquidityMigration.Orders
