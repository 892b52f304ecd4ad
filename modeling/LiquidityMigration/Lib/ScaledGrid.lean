import Mathlib

/- Grids whose step is a power of the base that depends on the place `Int.log b v` of a value's leading digit.
   Rounding measures the step at the value that is rounded; a value is on the grid when it is a multiple of its own
   step. The two agree as long as the step never grows faster than the value (`GridRule`): rounding down gives the
   greatest value of the grid not above, unless the step is larger than the value (`floor_isGreatest`), and rounding
   up the least not below (`ceil_isLeast`). -/

/-- The exponent of the step by the place of the leading digit. -/
structure GridRule where
  exponent : ℤ → ℤ
  mono : Monotone exponent
  slow : ∀ m, exponent (m + 1) ≤ exponent m + 1
  settles : ∀ m, m < exponent m → exponent (exponent m) ≤ exponent m

namespace GridRule
open Int

variable {R : Type*} [Field R] [LinearOrder R] [IsStrictOrderedRing R] [FloorRing R]
  {b : ℕ} {v p s : R} {m e : ℤ} (g : GridRule)

def OnGrid (b : ℕ) (p : R) : Prop := 0 < p ∧ ∃ k : ℤ, p = k * (b : R) ^ g.exponent (Int.log b p)

theorem log_eq (hb : 1 < b) (hlow : (b : R) ^ m ≤ p) (hhigh : p < (b : R) ^ (m + 1)) : Int.log b p = m := by
  have hbase : (0 : R) < b := by exact_mod_cast Nat.zero_lt_of_lt hb
  have hpos : 0 < p := lt_of_lt_of_le (zpow_pos hbase m) hlow
  have hge : m ≤ log b p := (zpow_le_iff_le_log hb hpos).mp hlow
  have hlt : log b p < m + 1 := (lt_zpow_iff_log_lt hb hpos).mp hhigh
  omega

theorem log_mono (hb : 1 < b) (hv : 0 < v) (h : v ≤ p) : Int.log b v ≤ Int.log b p :=
  (zpow_le_iff_le_log hb (lt_of_lt_of_le hv h)).mp ((zpow_log_le_self hb hv).trans h)

omit [IsStrictOrderedRing R] in
theorem multiple_of_le (hb : 1 < b) (he : e ≤ m) (h : ∃ k : ℤ, p = k * (b : R) ^ m) : ∃ k : ℤ, p = k * (b : R) ^ e := by
  obtain ⟨k, hk⟩ := h
  have hbase : (b : R) ≠ 0 := by exact_mod_cast (Nat.zero_lt_of_lt hb).ne'
  obtain ⟨n, hn⟩ := eq_ofNat_of_zero_le (sub_nonneg.mpr he)
  refine ⟨k * (b : ℤ) ^ n, ?_⟩
  have hsplit : (b : R) ^ m = (b : R) ^ n * (b : R) ^ e := by
    rw [← zpow_natCast, ← zpow_add₀ hbase, ← hn]
    congr 1
    omega
  rw [hk, hsplit]
  push_cast
  ring

theorem step_le (hs : 0 < s) (hp : 0 < p) (h : ∃ k : ℤ, p = k * s) : s ≤ p := by
  obtain ⟨k, rfl⟩ := h
  have hk : (0 : R) < k := (pos_iff_pos_of_mul_pos hp).mpr hs
  have hone : (1 : R) ≤ k := by exact_mod_cast (cast_pos.mp hk)
  calc s = 1 * s := (one_mul s).symm
    _ ≤ k * s := mul_le_mul_of_nonneg_right hone hs.le

theorem floor_mul_le (hs : 0 < s) : (⌊v / s⌋ : R) * s ≤ v := (le_div_iff₀ hs).mp (floor_le (v / s))

theorem le_floor_mul (hs : 0 < s) (h : ∃ k : ℤ, p = k * s) (hpv : p ≤ v) : p ≤ (⌊v / s⌋ : R) * s := by
  obtain ⟨k, rfl⟩ := h
  have hk : k ≤ ⌊v / s⌋ := le_floor.mpr ((le_div_iff₀ hs).mpr hpv)
  exact mul_le_mul_of_nonneg_right (by exact_mod_cast hk) hs.le

theorem le_ceil_mul (hs : 0 < s) : v ≤ (⌈v / s⌉ : R) * s := (div_le_iff₀ hs).mp (le_ceil (v / s))

theorem ceil_mul_le (hs : 0 < s) (h : ∃ k : ℤ, p = k * s) (hvp : v ≤ p) : (⌈v / s⌉ : R) * s ≤ p := by
  obtain ⟨k, rfl⟩ := h
  have hk : ⌈v / s⌉ ≤ k := ceil_le.mpr ((div_le_iff₀ hs).mpr hvp)
  exact mul_le_mul_of_nonneg_right (by exact_mod_cast hk) hs.le

section grid
variable {g}

def step (g : GridRule) (b : ℕ) (v : R) : R := (b : R) ^ g.exponent (Int.log b v)

section
variable (hb : 1 < b)
include hb

theorem step_pos : 0 < g.step b v := zpow_pos (by exact_mod_cast Nat.zero_lt_of_lt hb) _

/-- A power of the base is on the grid when its step is no larger than itself. -/
theorem onGrid_zpow (h : g.exponent m ≤ m) : g.OnGrid b ((b : R) ^ m) := by
  have hbase : (1 : R) < b := by exact_mod_cast hb
  have hlog : log b ((b : R) ^ m) = m := log_zpow hb m
  refine ⟨zpow_pos (by positivity) m, ?_⟩
  rw [hlog]
  exact multiple_of_le hb h ⟨1, by simp⟩

/-- Where the step is larger than the value, no smaller value is on the grid. -/
theorem not_onGrid_of_coarse (hcoarse : Int.log b v < g.exponent (Int.log b v)) (hpv : p ≤ v) : ¬ g.OnGrid b p := by
  intro hgrid
  obtain ⟨hp, hmultiple⟩ := hgrid
  -- the step falls no faster than the value, so it is larger than `p` too
  have hdown : ∀ n : ℕ, log b v - n < g.exponent (log b v - n) := by
    intro n
    induction n with
    | zero => simpa using hcoarse
    | succ n ih =>
      have hslow := g.slow (log b v - (n + 1 : ℕ))
      have hshift : log b v - ((n + 1 : ℕ) : ℤ) + 1 = log b v - n := by push_cast; ring
      rw [hshift] at hslow
      push_cast at hslow ⊢
      omega
  have hle := log_mono hb hp hpv
  obtain ⟨n, hn⟩ := eq_ofNat_of_zero_le (sub_nonneg.mpr hle)
  have hcoarse' : log b p < g.exponent (log b p) := by
    have := hdown n
    rwa [← hn, sub_sub_cancel] at this
  have hbase : (1 : R) < b := by exact_mod_cast hb
  have hstep : (b : R) ^ g.exponent (log b p) ≤ p := step_le (zpow_pos (by positivity) _) hp hmultiple
  have hbelow : p < (b : R) ^ (log b p + 1) := lt_zpow_succ_log_self hb p
  have hpow : (b : R) ^ (log b p + 1) ≤ (b : R) ^ g.exponent (log b p) :=
    zpow_le_zpow_right₀ hbase.le (by omega)
  exact absurd (hstep.trans_lt hbelow) (not_lt.mpr hpow)

theorem floor_isGreatest (hv : 0 < v) (hfine : g.exponent (Int.log b v) ≤ Int.log b v) :
    IsGreatest {p | g.OnGrid b p ∧ p ≤ v} ((⌊v / g.step b v⌋ : R) * g.step b v) := by
  have hs : 0 < g.step b v := step_pos hb
  have hpower : (b : R) ^ log b v ≤ v := zpow_log_le_self hb hv
  have hbelow : v < (b : R) ^ (log b v + 1) := lt_zpow_succ_log_self hb v
  -- the power below `v` is on the step, so the rounded value keeps the place of its leading digit
  have hkeep : (b : R) ^ log b v ≤ (⌊v / g.step b v⌋ : R) * g.step b v :=
    le_floor_mul hs (multiple_of_le hb hfine ⟨1, by simp⟩) hpower
  have hle : (⌊v / g.step b v⌋ : R) * g.step b v ≤ v := floor_mul_le hs
  have hlog : log b ((⌊v / g.step b v⌋ : R) * g.step b v) = log b v := log_eq hb hkeep (hle.trans_lt hbelow)
  have hbase : (0 : R) < b := by exact_mod_cast Nat.zero_lt_of_lt hb
  refine ⟨⟨⟨lt_of_lt_of_le (zpow_pos hbase _) hkeep, ?_⟩, hle⟩, ?_⟩
  · rw [hlog]
    exact ⟨_, rfl⟩
  · intro p hp
    obtain ⟨⟨hpos, hmultiple⟩, hpv⟩ := hp
    rcases (log_mono hb hpos hpv).lt_or_eq with hlt | heq
    · -- a value with a smaller leading place is below the power
      have hp' : p < (b : R) ^ log b v := (lt_zpow_iff_log_lt hb hpos).mpr hlt
      exact hp'.le.trans hkeep
    · rw [heq] at hmultiple
      exact le_floor_mul hs hmultiple hpv

theorem ceil_isLeast (hv : 0 < v) : IsLeast {p | g.OnGrid b p ∧ v ≤ p} ((⌈v / g.step b v⌉ : R) * g.step b v) := by
  have hs : 0 < g.step b v := step_pos hb
  have hbase : (1 : R) < b := by exact_mod_cast hb
  have hpower : (b : R) ^ log b v ≤ v := zpow_log_le_self hb hv
  have hbelow : v < (b : R) ^ (log b v + 1) := lt_zpow_succ_log_self hb v
  have hge : v ≤ (⌈v / g.step b v⌉ : R) * g.step b v := le_ceil_mul hs
  rcases le_or_gt (g.exponent (log b v)) (log b v) with hfine | hcoarse
  · -- rounding up stops at the next power at the latest
    have hcarry : (⌈v / g.step b v⌉ : R) * g.step b v ≤ (b : R) ^ (log b v + 1) :=
      ceil_mul_le hs (multiple_of_le (m := log b v + 1) hb (by omega) ⟨1, by simp⟩) hbelow.le
    refine ⟨⟨?_, hge⟩, ?_⟩
    · rcases hcarry.lt_or_eq with hlt | heq
      · have hlog : log b ((⌈v / g.step b v⌉ : R) * g.step b v) = log b v := log_eq hb (hpower.trans hge) hlt
        refine ⟨lt_of_lt_of_le hv hge, ?_⟩
        rw [hlog]
        exact ⟨_, rfl⟩
      · rw [heq]
        apply onGrid_zpow hb
        have := g.slow (log b v)
        omega
    · intro p hp
      obtain ⟨⟨hpos, hmultiple⟩, hvp⟩ := hp
      rcases (log_mono hb hv hvp).lt_or_eq with hlt | heq
      · have hp' : (b : R) ^ (log b v + 1) ≤ p := (zpow_le_iff_le_log hb hpos).mpr hlt
        exact hcarry.trans hp'
      · rw [← heq] at hmultiple
        exact ceil_mul_le hs hmultiple hvp
  · -- the step is larger than the value: one step it is
    have hstep : v ≤ g.step b v := by
      refine hbelow.le.trans (zpow_le_zpow_right₀ hbase.le ?_)
      omega
    have hceil : ⌈v / g.step b v⌉ = 1 := by
      apply ceil_eq_iff.mpr
      constructor
      · simpa using div_pos hv hs
      · simpa using (div_le_one hs).mpr hstep
    rw [hceil] at hge ⊢
    rw [cast_one, one_mul] at hge ⊢
    refine ⟨⟨onGrid_zpow hb (g.settles _ hcoarse), hge⟩, ?_⟩
    intro p hp
    obtain ⟨⟨hpos, hmultiple⟩, hvp⟩ := hp
    exact step_le hs hpos (multiple_of_le hb (g.mono (log_mono hb hv hvp)) hmultiple)

theorem floor_pos_iff (hv : 0 < v) :
    p = (⌊v / g.step b v⌋ : R) * g.step b v ∧ 0 < p ↔ IsGreatest {p | g.OnGrid b p ∧ p ≤ v} p := by
  rcases le_or_gt (g.exponent (log b v)) (log b v) with hfine | hcoarse
  · have hbest := floor_isGreatest hb hv hfine
    constructor
    · intro h
      rw [h.1]
      exact hbest
    · intro h
      exact ⟨h.unique hbest, h.1.1.1⟩
  · constructor
    · intro h
      obtain ⟨hp, hpos⟩ := h
      refine absurd hpos (not_lt.mpr (le_of_eq ?_))
      -- less than one step rounds down to nothing
      have hbase : (1 : R) < b := by exact_mod_cast hb
      have hstep : v < g.step b v :=
        (lt_zpow_succ_log_self hb v).trans_le (zpow_le_zpow_right₀ hbase.le (by omega))
      have hfloor : ⌊v / g.step b v⌋ = 0 :=
        floor_eq_zero_iff.mpr ⟨(div_pos hv (step_pos hb)).le, (div_lt_one (step_pos hb)).mpr hstep⟩
      rw [hp, hfloor, cast_zero, zero_mul]
    · intro h
      exact absurd h.1.1 (not_onGrid_of_coarse hb hcoarse h.1.2)

theorem ceil_iff (hv : 0 < v) : p = (⌈v / g.step b v⌉ : R) * g.step b v ↔ IsLeast {p | g.OnGrid b p ∧ v ≤ p} p := by
  have hbest := ceil_isLeast (g := g) hb hv
  constructor
  · intro h
    rw [h]
    exact hbest
  · intro h
    exact h.unique hbest

end

end grid

theorem floor_multiple_iff (hs : 0 < s) :
    p = (⌊v / s⌋ : R) * s ∧ 0 < p ↔ IsGreatest {p | (0 < p ∧ ∃ k : ℤ, p = k * s) ∧ p ≤ v} p := by
  constructor
  · intro h
    obtain ⟨hp, hpos⟩ := h
    have hle : s ≤ p := step_le hs hpos ⟨_, hp⟩
    have hbelow : p ≤ v := hp ▸ floor_mul_le hs
    refine ⟨⟨⟨hpos, _, hp⟩, hbelow⟩, ?_⟩
    intro q hq
    rw [hp]
    exact le_floor_mul hs hq.1.2 hq.2
  · intro h
    obtain ⟨⟨⟨hpos, hmultiple⟩, hbelow⟩, hbest⟩ := h
    have hge : p ≤ (⌊v / s⌋ : R) * s := le_floor_mul hs hmultiple hbelow
    have hle : (⌊v / s⌋ : R) * s ≤ p := hbest ⟨⟨hpos.trans_le hge, _, rfl⟩, floor_mul_le hs⟩
    exact ⟨le_antisymm hge hle, hpos⟩

theorem ceil_multiple_iff (hs : 0 < s) (hv : 0 < v) :
    p = (⌈v / s⌉ : R) * s ↔ IsLeast {p | (0 < p ∧ ∃ k : ℤ, p = k * s) ∧ v ≤ p} p := by
  have hbest : IsLeast {p | (0 < p ∧ ∃ k : ℤ, p = k * s) ∧ v ≤ p} ((⌈v / s⌉ : R) * s) := by
    refine ⟨⟨⟨lt_of_lt_of_le hv (le_ceil_mul hs), _, rfl⟩, le_ceil_mul hs⟩, ?_⟩
    intro q hq
    exact ceil_mul_le hs hq.1.2 hq.2
  constructor
  · intro h
    rw [h]
    exact hbest
  · intro h
    exact h.unique hbest

end GridRule
