import LiquidityMigration.Lib.ScaledGrid
import LiquidityMigration.Orders.Magnitude
import LiquidityMigration.Orders.Quantize

/- Quantization finds the best price. `Legal` says which prices a venue takes without computing a step. Where
   significant figures count, the source measures the step at the price it rounds and checks the result against the
   step of where it has come to; both are the step of one grid (`legal_iff_onGrid`). So the best legal price is found
   where it can be read and sent (`quantizePrice_best`), it comes back as it is (`quantizePrice_of_onGrid`), and the
   check never fails (`quantizePrice_ne_figures`). -/
namespace LiquidityMigration.Orders
open Numeric Checks Portfolio Risk GridRule Int

def DecimalsAtMost (count : ℕ) (p : Exact) : Prop := ∃ k : ℤ, p * 10 ^ count = k

def DigitsAtMost (count : ℕ) (p : Exact) : Prop := ∃ (k : ℕ) (e : ℤ), k < 10 ^ count ∧ p = k * 10 ^ e

def Legal (spec : ExactInstrumentSpec) (p : Exact) : Prop :=
  0 < p ∧
    match spec.pricePrecision with
    | .tick => ∃ tick, spec.tickSize = some tick ∧ ∃ k : ℤ, p = k * tick
    | .significantFigures maxDigits maxDecimals integerException =>
      DecimalsAtMost maxDecimals p ∧ (DigitsAtMost maxDigits p ∨ integerException = true ∧ ∃ k : ℤ, p = k)
    | .unavailable => False

/-- The greatest legal price not above `value` for a buy, the least not below it for a sell. -/
def Best (side : Side) (spec : ExactInstrumentSpec) (value p : Exact) : Prop :=
  match side with
  | .buy => IsGreatest {p | Legal spec p ∧ p ≤ value} p
  | .sell => IsLeast {p | Legal spec p ∧ value ≤ p} p

variable {side : Side} {spec : ExactInstrumentSpec} {value p step : Exact}

theorem Best.legal (h : Best side spec value p) : Legal spec p := by
  cases side with
  | buy => exact h.1.1
  | sell => exact h.1.1

variable (spec value) in
/-- The step of a price can be computed: the venue's rule is in range, and a price whose
significant figures count has a text and a step with an exponent in range. -/
def Readable : Prop :=
  match spec.pricePrecision with
  | .tick => ∃ tick text, spec.tickSize = some tick ∧ decimalWire tick = .ok text
  | .significantFigures maxDigits maxDecimals integerException =>
    ¬ (maxDigits = 0 ∨ 4096 < maxDigits ∨ 4096 < maxDecimals) ∧ (∃ text, decimalWire value = .ok text) ∧
      (integerException = false → Int.log 10 value - maxDigits + 1 ≤ 4096)
  | .unavailable => False

def figureExponent (maxDigits maxDecimals : ℕ) (integerException : Bool) (m : ℤ) : ℤ :=
  if integerException then min (max (m - maxDigits + 1) (-maxDecimals)) 0 else max (m - maxDigits + 1) (-maxDecimals)

def figureRule (maxDigits maxDecimals : ℕ) (integerException : Bool) (hdigits : 0 < maxDigits) : GridRule where
  exponent := figureExponent maxDigits maxDecimals integerException
  mono := by
    intro m m' h
    cases integerException with
    | false => simp only [figureExponent, Bool.false_eq_true, if_false]; omega
    | true => simp only [figureExponent, if_true]; omega
  slow := by
    intro m
    cases integerException with
    | false => simp only [figureExponent, Bool.false_eq_true, if_false]; omega
    | true => simp only [figureExponent, if_true]; omega
  settles := by
    intro m h
    cases integerException with
    | false =>
      simp only [figureExponent, Bool.false_eq_true, if_false] at h ⊢
      omega
    | true =>
      simp only [figureExponent, if_true] at h ⊢
      omega

theorem multiple_zpow_iff {e e' : ℤ} :
    (∃ k : ℤ, p = k * (10 : Exact) ^ max e e') ↔ (∃ k : ℤ, p = k * (10 : Exact) ^ e) ∧
      ∃ k : ℤ, p = k * (10 : Exact) ^ e' := by
  have hfiner : ∀ {a c : ℤ}, a ≤ c → (∃ k : ℤ, p = k * (10 : Exact) ^ c) → ∃ k : ℤ, p = k * (10 : Exact) ^ a := by
    intro a c hac h
    exact_mod_cast multiple_of_le (R := ℚ) (b := 10) (by decide) hac (by exact_mod_cast h)
  constructor
  · intro h
    exact ⟨hfiner (le_max_left e e') h, hfiner (le_max_right e e') h⟩
  · intro h
    rcases max_choice e e' with hmax | hmax
    · rw [hmax]
      exact h.1
    · rw [hmax]
      exact h.2

theorem decimalsAtMost_iff {count : ℕ} : DecimalsAtMost count p ↔ ∃ k : ℤ, p = k * (10 : Exact) ^ (-(count : ℤ)) := by
  have hpow : (10 : Exact) ^ count ≠ 0 := by positivity
  unfold DecimalsAtMost
  simp only [zpow_neg, zpow_natCast]
  constructor
  · intro h
    obtain ⟨k, hk⟩ := h
    exact ⟨k, by rw [← hk]; field_simp⟩
  · intro h
    obtain ⟨k, hk⟩ := h
    exact ⟨k, by rw [hk]; field_simp⟩

/-- A value has at most `count` significant digits when it is a multiple of the place of its
last one. -/
theorem digitsAtMost_iff {count : ℕ} (hp : 0 < p) :
    DigitsAtMost count p ↔ ∃ k : ℤ, p = k * (10 : Exact) ^ (Int.log 10 p - count + 1) := by
  have hlow : (10 : Exact) ^ log 10 p ≤ p := by exact_mod_cast zpow_log_le_self (R := ℚ) (b := 10) (by decide) hp
  have hhigh : p < (10 : Exact) ^ (log 10 p + 1) := by
    exact_mod_cast lt_zpow_succ_log_self (R := ℚ) (b := 10) (by decide) p
  have hten : (0 : Exact) < 10 := by norm_num
  constructor
  · intro h
    obtain ⟨k, e, hk, hpk⟩ := h
    -- a lower last place would leave the value below its own first digit
    have he : log 10 p - count + 1 ≤ e := by
      by_contra hlt
      have hsmall : p < (10 : Exact) ^ log 10 p := by
        have hk' : (k : Exact) < 10 ^ count := by exact_mod_cast hk
        calc p = k * 10 ^ e := hpk
          _ < 10 ^ count * 10 ^ e := mul_lt_mul_of_pos_right hk' (zpow_pos hten e)
          _ = (10 : Exact) ^ ((count : ℤ) + e) := by rw [zpow_add₀ hten.ne', zpow_natCast]
          _ ≤ (10 : Exact) ^ log 10 p := zpow_le_zpow_right₀ (by norm_num) (by omega)
      exact absurd hlow (not_le.mpr hsmall)
    have hmultiple : ∃ j : ℤ, p = j * ((10 : ℕ) : ℚ) ^ e := ⟨k, by rw [hpk]; push_cast; rfl⟩
    exact_mod_cast multiple_of_le (R := ℚ) (b := 10) (by decide) he hmultiple
  · intro h
    obtain ⟨k, hk⟩ := h
    have hpow : (0 : Exact) < 10 ^ (log 10 p - count + 1) := zpow_pos hten _
    have hkpos : (0 : Exact) < k := (pos_iff_pos_of_mul_pos (hk ▸ hp)).mpr hpow
    have hksmall : (k : Exact) < 10 ^ count := by
      have hsplit : (10 : Exact) ^ (log 10 p + 1) = 10 ^ count * 10 ^ (log 10 p - count + 1) := by
        rw [← zpow_natCast, ← zpow_add₀ hten.ne']
        congr 1
        omega
      rw [hsplit] at hhigh
      exact lt_of_mul_lt_mul_right (hk ▸ hhigh) hpow.le
    have hnat : (k.toNat : ℤ) = k := toNat_of_nonneg (by exact_mod_cast hkpos.le)
    have hcast : ((k.toNat : ℕ) : Exact) = (k : Exact) := by exact_mod_cast congrArg (fun z : ℤ => (z : Exact)) hnat
    refine ⟨k.toNat, _, ?_, by rw [hcast]; exact hk⟩
    rw [← hcast] at hksmall
    exact_mod_cast hksmall

theorem legal_iff_onGrid {maxDigits maxDecimals : ℕ} {integerException : Bool}
    (hspec : spec.pricePrecision = .significantFigures maxDigits maxDecimals integerException) (hdigits : 0 < maxDigits)
    : Legal spec p ↔ (figureRule maxDigits maxDecimals integerException hdigits).OnGrid 10 p := by
  unfold Legal GridRule.OnGrid
  rw [hspec]
  apply and_congr_right
  intro hp
  simp only [figureRule, figureExponent, Nat.cast_ofNat]
  rw [digitsAtMost_iff hp, decimalsAtMost_iff]
  cases integerException with
  | false =>
    simp only [Bool.false_eq_true, false_and, or_false, if_false]
    rw [and_comm]
    exact multiple_zpow_iff.symm
  | true =>
    simp only [true_and, if_true]
    have hinteger : (∃ k : ℤ, p = k) ↔ ∃ k : ℤ, p = k * (10 : Exact) ^ (0 : ℤ) := by simp
    rw [hinteger]
    rcases le_total (log 10 p - maxDigits + 1) 0 with hfine | hcoarse
    · -- an integer has its digits above a step below one
      rw [min_eq_left (by omega), multiple_zpow_iff]
      have himp : (∃ k : ℤ, p = k * (10 : Exact) ^ (0 : ℤ)) →
          ∃ k : ℤ, p = k * (10 : Exact) ^ (log 10 p - maxDigits + 1) := by
        intro h
        exact_mod_cast multiple_of_le (R := ℚ) (b := 10) (by decide) hfine (by exact_mod_cast h)
      constructor
      · intro h
        exact ⟨h.2.elim id himp, h.1⟩
      · intro h
        exact ⟨h.2, .inl h.1⟩
    · -- a step above one asks for an integer, which is what the exception allows
      rw [min_eq_right (by omega)]
      have himp : (∃ k : ℤ, p = k * (10 : Exact) ^ (log 10 p - maxDigits + 1)) →
          ∃ k : ℤ, p = k * (10 : Exact) ^ (0 : ℤ) := by
        intro h
        exact_mod_cast multiple_of_le (R := ℚ) (b := 10) (by decide) hcoarse (by exact_mod_cast h)
      have hdecimals : (∃ k : ℤ, p = k * (10 : Exact) ^ (0 : ℤ)) →
          ∃ k : ℤ, p = k * (10 : Exact) ^ (-(maxDecimals : ℤ)) := by
        intro h
        exact_mod_cast multiple_of_le (R := ℚ) (b := 10) (e := -(maxDecimals : ℤ)) (m := 0) (by decide) (by omega)
          (by exact_mod_cast h)
      constructor
      · intro h
        exact h.2.elim himp id
      · intro h
        exact ⟨hdecimals h, .inr h⟩

theorem powerOfTen_eq_ok {e : ℤ} : powerOfTen e = .ok step ↔ e.natAbs ≤ 4096 ∧ step = 10 ^ e := by
  unfold powerOfTen
  split
  · next h =>
    have h' : 4096 < e.natAbs := h
    constructor
    · intro herror
      cases herror
    · intro hok
      omega
  · next h =>
    have h' : e.natAbs ≤ 4096 := not_lt.mp h
    rw [Except.ok.injEq, eq_comm]
    exact ⟨fun hstep => ⟨h', hstep⟩, And.right⟩

theorem priceStep_tick (hspec : spec.pricePrecision = .tick) :
    priceStep value spec = .ok step ↔ spec.tickSize = some step ∧ ∃ text, decimalWire step = .ok text := by
  simp only [priceStep, hspec, requiredPositive, ok_iff]
  constructor
  · intro h
    obtain ⟨tick, htick, text, htext, rfl⟩ := h
    exact ⟨htick, text, htext⟩
  · intro h
    obtain ⟨htick, text, htext⟩ := h
    exact ⟨step, htick, text, htext, rfl⟩

theorem priceStep_figures {maxDigits maxDecimals : ℕ} {integerException : Bool}
    (hspec : spec.pricePrecision = .significantFigures maxDigits maxDecimals integerException) :
    priceStep value spec = .ok step ↔ Readable spec value ∧
      step = 10 ^ figureExponent maxDigits maxDecimals integerException (Int.log 10 value) := by
  simp only [priceStep, Readable, hspec, numeric, ok_iff, magnitude_eq_ok, powerOfTen_eq_ok]
  -- the exponent is never below the cap on the decimals
  have hrange : ∀ m : ℤ, maxDecimals ≤ 4096 →
      ((figureExponent maxDigits maxDecimals integerException m).natAbs ≤ 4096 ↔
        (integerException = false → m - maxDigits + 1 ≤ 4096)) := by
    intro m hdecimals
    cases integerException with
    | false => simp only [figureExponent, Bool.false_eq_true, if_false, forall_const]; omega
    | true => simp only [figureExponent, if_true, Bool.true_eq_false, false_implies, iff_true]; omega
  constructor
  · intro h
    obtain ⟨hdigits, m, ⟨hwire, rfl⟩, hexponent, hstep⟩ := h
    exact ⟨⟨hdigits, hwire, (hrange _ (by omega)).mp hexponent⟩, hstep⟩
  · intro h
    obtain ⟨⟨hdigits, hwire, hexponent⟩, hstep⟩ := h
    exact ⟨hdigits, _, ⟨hwire, rfl⟩, (hrange _ (by omega)).mpr hexponent, hstep⟩

theorem readable_iff : Readable spec value ↔ ∃ step, priceStep value spec = .ok step := by
  cases hspec : spec.pricePrecision with
  | tick =>
    simp only [priceStep_tick hspec, Readable, hspec]
    constructor
    · intro h
      obtain ⟨tick, text, htick, htext⟩ := h
      exact ⟨tick, htick, text, htext⟩
    · intro h
      obtain ⟨tick, htick, text, htext⟩ := h
      exact ⟨tick, text, htick, htext⟩
  | significantFigures maxDigits maxDecimals integerException =>
    simp only [priceStep_figures hspec, exists_and_left, exists_eq, and_true]
  | unavailable => simp [Readable, priceStep, hspec]

theorem legal_iff_multiple (hstep : priceStep p spec = .ok step) :
    Legal spec p ↔ 0 < p ∧ isMultipleOf p step = .ok true := by
  rw [isMultipleOf_eq_true]
  cases hspec : spec.pricePrecision with
  | tick =>
    obtain ⟨htick, text, htext⟩ := (priceStep_tick hspec).mp hstep
    have hpos : 0 < step := (decimalWire_eq_ok.mp htext).2.1
    simp only [Legal, hspec, htick, Option.some.injEq, exists_eq_left', hpos, true_and]
  | significantFigures maxDigits maxDecimals integerException =>
    obtain ⟨hreadable, rfl⟩ := (priceStep_figures hspec).mp hstep
    simp only [Readable, hspec] at hreadable
    have hdigits : 0 < maxDigits := by omega
    have hpos : (0 : Exact) < 10 ^ figureExponent maxDigits maxDecimals integerException (log 10 p) :=
      zpow_pos (by norm_num) _
    rw [legal_iff_onGrid hspec hdigits]
    simp only [GridRule.OnGrid, figureRule, Nat.cast_ofNat, hpos, true_and]
  | unavailable => simp [priceStep, hspec] at hstep

theorem snap_best (hv : 0 < value)
    (hstep : priceStep value spec = .ok step) : snap value side step = .ok p ∧ 0 < p ↔ Best side spec value p := by
  have hsnap : snap value side step = .ok p ↔
      0 < step ∧
        p = (match side with | .buy => (⌊value / step⌋ : Exact) | .sell => (⌈value / step⌉ : Exact)) * step := by
    cases side with
    | buy => exact floorTo_eq_ok
    | sell => exact ceilTo_eq_ok
  rw [hsnap]
  cases hspec : spec.pricePrecision with
  | tick =>
    obtain ⟨htick, text, htext⟩ := (priceStep_tick hspec).mp hstep
    have hpos : 0 < step := (decimalWire_eq_ok.mp htext).2.1
    have hlegal : ∀ q, Legal spec q ↔ 0 < q ∧ ∃ k : ℤ, q = k * step := by
      intro q
      simp only [Legal, hspec, htick, Option.some.injEq, exists_eq_left']
    simp only [hpos, true_and]
    cases side with
    | buy =>
      simp only [Best, hlegal]
      exact floor_multiple_iff hpos
    | sell =>
      simp only [Best, hlegal]
      rw [← ceil_multiple_iff hpos hv]
      constructor
      · exact And.left
      · intro h
        exact ⟨h, h ▸ hv.trans_le (le_ceil_mul hpos)⟩
  | significantFigures maxDigits maxDecimals integerException =>
    obtain ⟨hreadable, rfl⟩ := (priceStep_figures hspec).mp hstep
    simp only [Readable, hspec] at hreadable
    have hdigits : 0 < maxDigits := by omega
    have hgrid : (10 : Exact) ^ figureExponent maxDigits maxDecimals integerException (log 10 value) =
        (figureRule maxDigits maxDecimals integerException hdigits).step 10 value := by
      simp only [step, figureRule, Nat.cast_ofNat]
    have hpos : 0 < (figureRule maxDigits maxDecimals integerException hdigits).step 10 value :=
      step_pos (by decide)
    rw [hgrid]
    simp only [hpos, true_and]
    cases side with
    | buy =>
      simp only [Best, legal_iff_onGrid hspec hdigits]
      exact floor_pos_iff (by decide) hv
    | sell =>
      simp only [Best, legal_iff_onGrid hspec hdigits]
      rw [← ceil_iff (by decide) hv]
      constructor
      · exact And.left
      · intro h
        exact ⟨h, h ▸ hv.trans_le (le_ceil_mul hpos)⟩
  | unavailable => simp [priceStep, hspec] at hstep

variable (spec p) in
/-- A price that can be sent: positive, with a text that fits, and within the bounds of the
venue. -/
def Sendable : Prop :=
  (∃ text, decimalWire p = .ok text) ∧ checkBounds p spec.minPrice spec.maxPrice "price bounds" = .ok ()

theorem quantizePrice_best (hv : 0 < value) : quantizePrice value side spec = .ok p ↔
      Best side spec value p ∧ Readable spec value ∧ Readable spec p ∧ Sendable spec p := by
  rw [quantizePrice_eq_ok]
  constructor
  · intro h
    obtain ⟨⟨step, hstep, hsnap⟩, ⟨text, hwire⟩, ⟨final, hfinal, hmultiple⟩, hbounds⟩ := h
    have hp : 0 < p := (decimalWire_eq_ok.mp hwire).2.1
    exact ⟨(snap_best hv hstep).mp ⟨hsnap, hp⟩, readable_iff.mpr ⟨step, hstep⟩, readable_iff.mpr ⟨final, hfinal⟩,
      ⟨text, hwire⟩, hbounds⟩
  · intro h
    obtain ⟨hbest, hreadable, hreadable', hwire, hbounds⟩ := h
    obtain ⟨step, hstep⟩ := readable_iff.mp hreadable
    obtain ⟨final, hfinal⟩ := readable_iff.mp hreadable'
    exact ⟨⟨step, hstep, ((snap_best hv hstep).mpr hbest).1⟩, hwire,
      ⟨final, hfinal, ((legal_iff_multiple hfinal).mp hbest.legal).2⟩, hbounds⟩

theorem ceilTo_of_multiple {x : Exact} (h : isMultipleOf x step = .ok true) : ceilTo x step = .ok x := by
  obtain ⟨hstep, k, rfl⟩ := isMultipleOf_eq_true.mp h
  apply ceilTo_eq_ok.mpr
  refine ⟨hstep, ?_⟩
  rw [mul_div_assoc, div_self hstep.ne', mul_one, ceil_intCast]

theorem quantizePrice_of_onGrid (h : OnGrid spec p) (side : Side) : quantizePrice p side spec = .ok p := by
  cases side with
  | buy => exact h.quantizePrice
  | sell =>
    obtain ⟨step, hstep, hmultiple⟩ := h.multiple
    exact quantizePrice_eq_ok.mpr ⟨⟨step, hstep, ceilTo_of_multiple hmultiple⟩, h⟩

theorem numeric_ne_constraint {α : Type} {x : Except ExactError α} {what : String} :
    numeric x ≠ .error (.constraint what) := by
  cases x <;> simp [numeric, Except.mapError]

theorem decimalWire_ne_figures : decimalWire value ≠ .error (.constraint "price significant figures") := by
  intro h
  simp only [decimalWire, bind_eq_error, numeric_ne_constraint, require_eq_error, orError_eq_error, false_or] at h
  obtain ⟨-, -, ⟨-, hwhat⟩ | ⟨-, -, -, hwhat⟩⟩ := h
  · exact absurd hwhat (by decide)
  · exact absurd hwhat (by decide)

theorem priceStep_ne_figures : priceStep value spec ≠ .error (.constraint "price significant figures") := by
  cases hspec : spec.pricePrecision with
  | tick =>
    intro h
    simp only [priceStep, hspec, requiredPositive, bind_eq_error, orError_eq_error, decimalWire_ne_figures,
      false_or] at h
    obtain ⟨-, hwhat⟩ | ⟨tick, -, text, -, hok⟩ := h
    · cases hwhat
    · cases hok
  | significantFigures maxDigits maxDecimals integerException =>
    intro h
    simp only [priceStep, hspec, bind_eq_error, require_eq_error, numeric_ne_constraint, and_false, exists_false,
      or_false] at h
    rcases h with ⟨-, hwhat⟩ | ⟨-, -, hmagnitude⟩
    · exact absurd hwhat (by decide)
    · rw [magnitude_eq, bind_eq_error] at hmagnitude
      rcases hmagnitude with hwire | ⟨text, hwire, hmagnitude⟩
      · exact decimalWire_ne_figures hwire
      · -- a price with a text has a first digit
        have hok := magnitude_of_wire hwire
        rw [magnitude_eq, hwire] at hok
        exact absurd (hmagnitude.symm.trans hok) (by simp)
  | unavailable => simp [priceStep, hspec]

theorem checkBounds_ne_figures {min max : Option Exact} :
    checkBounds value min max "price bounds" ≠ .error (.constraint "price significant figures") := by
  have hbound : ∀ bounds : List Exact,
      firstError (bounds.map checkBound) ≠ .error (.constraint "price significant figures") := by
    intro bounds
    induction bounds with
    | nil => simp
    | cons bound bounds ih =>
      rw [List.map_cons]
      cases hcheck : checkBound bound with
      | error e =>
        intro h
        have he : e = .constraint "price significant figures" := Except.error.inj h
        simp only [checkBound, he, bind_eq_error, numeric_ne_constraint, require_eq_error, false_or] at hcheck
        obtain ⟨-, -, -, hwhat⟩ := hcheck
        exact absurd hwhat (by decide)
      | ok u => exact ih
  intro h
  simp only [checkBounds, bind_eq_error, require_eq_error, hbound, false_or] at h
  obtain ⟨-, -, -, hwhat⟩ := h
  exact absurd hwhat (by decide)

theorem quantizePrice_ne_figures (hv : 0 < value) :
    quantizePrice value side spec ≠ .error (.constraint "price significant figures") := by
  intro h
  simp only [quantizePrice, bind_eq_error, numeric_ne_constraint, priceStep_ne_figures, decimalWire_ne_figures,
    require_eq_error, checkBounds_ne_figures, false_or, reduceCtorEq, and_false, exists_false, or_false] at h
  obtain ⟨step, hstep, p, hsnap, text, hwire, final, hfinal, onGrid, hmultiple, hoff, -⟩ := h
  have hp : 0 < p := (decimalWire_eq_ok.mp hwire).2.1
  simp only [numeric, mapError_eq_ok] at hsnap hmultiple
  have hlegal := ((snap_best hv hstep).mp ⟨hsnap, hp⟩).legal
  have hon := ((legal_iff_multiple hfinal).mp hlegal).2
  rw [hon] at hmultiple
  exact hoff (Except.ok.inj hmultiple).symm

/-- **Quantization is optimal.** A price that is returned is the best legal one, one is
returned whenever there is a best legal price that can be read and sent, it comes back as it is
for both sides, and the significant figures of the result are never at fault. -/
theorem quantization_optimal (value : Exact) (side : Side) (spec : ExactInstrumentSpec) (hv : 0 < value) :
    (∀ p, quantizePrice value side spec = .ok p ↔
      Best side spec value p ∧ Readable spec value ∧ Readable spec p ∧ Sendable spec p) ∧
    (∀ p, quantizePrice value side spec = .ok p → ∀ side', quantizePrice p side' spec = .ok p) ∧
    quantizePrice value side spec ≠ .error (.constraint "price significant figures") := by
  refine ⟨fun p => quantizePrice_best hv, ?_, quantizePrice_ne_figures hv⟩
  intro p h side'
  exact quantizePrice_of_onGrid (quantizePrice_onGrid h) side'

/-- Five significant figures and at most six decimals, without bounds. -/
def fiveFigures : ExactInstrumentSpec where
  tickSize := none
  minPrice := none
  maxPrice := none
  pricePrecision := .significantFigures 5 6 false
  qtyStep := none
  minQty := none
  marketQtyStep := none
  marketMinQty := none
  maxQty := none
  maxMarketQty := none
  minNotional := none

/-- A sell that carries to the next power of ten. -/
theorem quantization_optimal_carried : (0 : Exact) < 999996 / 10 ∧ Best .sell fiveFigures (999996 / 10) 100000 :=
  ⟨by norm_num, ((quantization_optimal (999996 / 10) .sell fiveFigures (by norm_num)).1 100000).mp
    (by decide +kernel) |>.1⟩

/-- A third has a greatest legal price below it but no text, so its step is not read. -/
theorem repeating_price_refused : Best .buy fiveFigures (1 / 3) (33333 / 100000) ∧
      quantizePrice (1 / 3) .buy fiveFigures = .error (.constraint "finite decimal wire amount") := by
  refine ⟨?_, by decide +kernel⟩
  have hlog : log 10 (1 / 3 : ℚ) = -1 := log_eq (by decide) (by norm_num) (by norm_num)
  have hstep : (figureRule 5 6 false (by decide)).step 10 (1 / 3 : ℚ) = 1 / 100000 := by
    simp only [step, hlog, figureRule, figureExponent]
    norm_num
  have hfloor : ⌊(1 / 3 : ℚ) / (1 / 100000)⌋ = 33333 := by
    rw [floor_eq_iff]
    norm_num
  have hfigures : fiveFigures.pricePrecision = .significantFigures 5 6 false := rfl
  simp only [Best, legal_iff_onGrid hfigures (by decide)]
  rw [← floor_pos_iff (by decide) (by norm_num), hstep, hfloor]
  norm_num

end LiquidityMigration.Orders
