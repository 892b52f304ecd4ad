import LiquidityMigration.Lib.ScaledGrid

/- Rounding to the nearest value of a grid whose step grows with the value, the even multiple where two are as near:
   the rounding of a binary format with its precision and least exponent in the `GridRule`. It is monotone
   (`nearest_mono`), as rounding to an integer is (`halfEven_mono`): where the step changes, a power of the base that
   is a multiple of both steps lies between, and no rounding passes it. -/
namespace NearestEven
open Int

section integers
variable {R : Type*} [Field R] [LinearOrder R] [IsStrictOrderedRing R] [FloorRing R] {x y : R}

def halfEven (x : R) : ℤ :=
  if 2 * Int.fract x < 1 then ⌊x⌋
  else if 1 < 2 * Int.fract x then ⌊x⌋ + 1
  else if ⌊x⌋ % 2 = 0 then ⌊x⌋
  else ⌊x⌋ + 1

omit [IsStrictOrderedRing R] in
theorem floor_le_halfEven (x : R) : ⌊x⌋ ≤ halfEven x := by
  unfold halfEven
  split_ifs <;> omega

omit [IsStrictOrderedRing R] in
theorem halfEven_le (x : R) : halfEven x ≤ ⌊x⌋ + 1 := by
  unfold halfEven
  split_ifs <;> omega

@[simp] theorem halfEven_intCast (n : ℤ) : halfEven (n : R) = n := by
  simp [halfEven]

theorem halfEven_mono (h : x ≤ y) : halfEven x ≤ halfEven y := by
  rcases (floor_mono h).lt_or_eq with hlt | heq
  · -- an integer lies between
    calc halfEven x ≤ ⌊x⌋ + 1 := halfEven_le x
      _ ≤ ⌊y⌋ := hlt
      _ ≤ halfEven y := floor_le_halfEven y
  · have hfract : fract x ≤ fract y := by
      unfold fract
      rw [heq]
      linarith
    unfold halfEven
    rw [heq]
    split_ifs <;> first | omega | linarith

theorem halfEven_neg (x : R) : halfEven (-x) = -halfEven x := by
  by_cases hx : fract x = 0
  · obtain ⟨n, rfl⟩ : ∃ n : ℤ, x = n := ⟨⌊x⌋, by rw [fract, sub_eq_zero] at hx; exact hx⟩
    rw [← cast_neg, halfEven_intCast, halfEven_intCast]
  · have hfract : fract (-x) = 1 - fract x := fract_neg hx
    have hfloor : ⌊-x⌋ = -⌊x⌋ - 1 := by
      have hcast : ((⌊-x⌋ : ℤ) : R) = ((-⌊x⌋ - 1 : ℤ) : R) := by
        have h1 := self_sub_floor (-x)
        have h2 := self_sub_floor x
        push_cast
        linarith
      exact_mod_cast hcast
    unfold halfEven
    rw [hfract, hfloor]
    split_ifs <;> first | omega | linarith

end integers

end NearestEven

namespace GridRule

variable {R : Type*} [Field R] [LinearOrder R] [IsStrictOrderedRing R] [FloorRing R]
  {b : ℕ} {v w p s : R} {m m' : ℤ} (g : GridRule)
open NearestEven

def atStep (v s : R) : R := (halfEven (v / s) : R) * s

theorem atStep_mono (hs : 0 < s) (h : v ≤ w) : atStep v s ≤ atStep w s := by
  unfold atStep
  have hdiv : v / s ≤ w / s := div_le_div_of_nonneg_right h hs.le
  exact mul_le_mul_of_nonneg_right (by exact_mod_cast halfEven_mono hdiv) hs.le

theorem atStep_multiple (hs : 0 < s) (h : ∃ k : ℤ, p = k * s) : atStep p s = p := by
  obtain ⟨k, rfl⟩ := h
  unfold atStep
  rw [mul_div_cancel_right₀ _ hs.ne', halfEven_intCast]

theorem atStep_neg (v s : R) : atStep (-v) s = -atStep v s := by
  unfold atStep
  rw [neg_div, halfEven_neg, Int.cast_neg, neg_mul]

def nearest (b : ℕ) (v : R) : R := atStep v (g.step b |v|)

theorem nearest_neg (v : R) : g.nearest b (-v) = -g.nearest b v := by
  unfold nearest
  rw [abs_neg, atStep_neg]

omit [IsStrictOrderedRing R] in
theorem nearest_multiple (v : R) : ∃ k : ℤ, g.nearest b v = k * g.step b |v| := ⟨_, rfl⟩

@[simp] theorem nearest_zero : g.nearest b (0 : R) = 0 := by
  simp [nearest, atStep, halfEven]

theorem exponent_le_add (h : m' ≤ m) : g.exponent m ≤ g.exponent m' + (m - m') := by
  induction m, h using Int.leInduction with
  | base => simp
  | succ m _ ih =>
    have := g.slow m
    omega

/-- Where the exponent has grown, it is not above the place it belongs to. -/
theorem exponent_le_of_grown (h : m' ≤ m) (hgrown : g.exponent m' < g.exponent m) : g.exponent m ≤ m := by
  by_contra hcoarse
  have hslow := g.exponent_le_add h
  have hcoarse' : m' < g.exponent m' := by omega
  have hsettled := g.settles m' hcoarse'
  rcases le_total m (g.exponent m') with hle | hle
  · have := g.mono hle
    omega
  · have := g.exponent_le_add hle
    omega

theorem nearest_nonneg (hb : 1 < b) (hv : 0 ≤ v) : 0 ≤ g.nearest b v := by
  have hs : 0 < g.step b |v| := g.step_pos hb
  calc (0 : R) = atStep 0 (g.step b |v|) := by simp [atStep, halfEven]
    _ ≤ atStep v (g.step b |v|) := atStep_mono hs hv

theorem nearest_mono_pos (hb : 1 < b) (hv : 0 < v) (h : v ≤ w) : g.nearest b v ≤ g.nearest b w := by
  have hw : 0 < w := hv.trans_le h
  have hsv : 0 < g.step b v := g.step_pos hb
  have hsw : 0 < g.step b w := g.step_pos hb
  unfold nearest
  rw [abs_of_pos hv, abs_of_pos hw]
  have hlog := log_mono hb hv h
  rcases (g.mono hlog).lt_or_eq with hlt | heq
  · have hbase : (1 : R) < b := by exact_mod_cast hb
    have hplaces : Int.log b v < Int.log b w := by
      rcases hlog.lt_or_eq with hlt' | heq'
      · exact hlt'
      · rw [heq'] at hlt
        exact absurd hlt (lt_irrefl _)
    -- the power of the base at which `w` begins
    have hfine := g.exponent_le_of_grown hlog hlt
    have hpower : ∃ k : ℤ, (b : R) ^ Int.log b w = k * (b : R) ^ Int.log b w := ⟨1, by simp⟩
    have hv' : v ≤ (b : R) ^ Int.log b w :=
      ((Int.lt_zpow_succ_log_self hb v).le).trans (zpow_le_zpow_right₀ hbase.le (by omega))
    have hw' : (b : R) ^ Int.log b w ≤ w := Int.zpow_log_le_self hb hw
    calc atStep v (g.step b v) ≤ atStep ((b : R) ^ Int.log b w) (g.step b v) := atStep_mono hsv hv'
      _ = (b : R) ^ Int.log b w := atStep_multiple hsv (multiple_of_le hb (hlt.le.trans hfine) hpower)
      _ = atStep ((b : R) ^ Int.log b w) (g.step b w) := (atStep_multiple hsw (multiple_of_le hb hfine hpower)).symm
      _ ≤ atStep w (g.step b w) := atStep_mono hsw hw'
  · have hstep : g.step b v = g.step b w := by
      unfold step
      rw [heq]
    rw [hstep]
    exact atStep_mono hsw h

theorem nearest_mono (hb : 1 < b) (h : v ≤ w) : g.nearest b v ≤ g.nearest b w := by
  rcases lt_or_ge 0 v with hv | hv
  · exact g.nearest_mono_pos hb hv h
  · rcases lt_or_ge w 0 with hw | hw
    · have := g.nearest_mono_pos hb (neg_pos.mpr hw) (neg_le_neg h)
      rw [nearest_neg, nearest_neg] at this
      exact neg_le_neg_iff.mp this
    · have hv' := g.nearest_nonneg hb (neg_nonneg.mpr hv)
      rw [nearest_neg] at hv'
      exact (neg_nonneg.mp hv').trans (g.nearest_nonneg hb hw)

end GridRule
