import LiquidityMigration.Lib.DoubleOdd
import LiquidityMigration.Venue.Lighter.Gfp5

/- Points in the code's fractional coordinates compute in the group of the pairs `(X/Z, U/T)` (`Represents`): `add` and
   `double` leave numerators and denominators of the complete formulas, up to a common factor, and `decode` solves the
   curve's equation for the encoding, choosing the solution that is no square (`stands_pointOf`). -/
namespace LiquidityMigration.Venue.Lighter.Ecgfp5
open Goldilocks Gfp5 DoubleOdd

instance : Finite K :=
  have := (AdjoinRoot.powerBasis modulus_irreducible.ne_zero).finite
  Module.finite_of_finite GF

noncomputable def β : K := of b₁ * r

theorem stands_bMul {k : Nat} (hk : k < 5) : Stands (bMul k) (k * β) := by
  refine (stands_ofCoeffs (c := fun i => if i = 1 then ((k * b₁ : Nat) : GF) else 0) fun i _ => ?_).congr ?_
  · split
    · exact word_cast (by unfold b₁ goldilocks; omega)
    · exact word_zero
  · simp [value, Finset.sum_range_succ, β, mul_assoc]

theorem stands_b : Stands (bMul 1) β := (stands_bMul (by decide)).congr (by simp)

theorem stands_nat {n : Nat} (h : n < goldilocks) : Stands (fromBase n) n :=
  (stands_fromBase (word_cast h)).congr (map_natCast of n)

theorem stands_two : Stands two 2 := (stands_nat (by decide)).congr Nat.cast_ofNat

theorem stands_a : Stands a 2 := stands_two

theorem two_ne_zero : (2 : K) ≠ 0 := (stands_two.eq_iff stands_zero).not.mpr (by decide)

theorem not_isSquare {e : Element} {x : K} (hx : Stands e x) (h : legendre e = goldilocks - 1) : ¬ IsSquare x := by
  intro hsquare
  obtain ⟨hzero, hone, -⟩ := legendre_cases hx
  by_cases h0 : x = 0
  · rw [hzero h0] at h
    cases h
  · rw [hone h0 hsquare] at h
    cases h

theorem legendre_b : legendre (bMul 1) = goldilocks - 1 ∧ legendre (Gfp5.sub one (bMul 1)) = goldilocks - 1 := by
  decide +kernel

theorem coefficient : Coefficient β where
  nonsquare := not_isSquare stands_b legendre_b.1
  discriminant := not_isSquare (stands_one.sub stands_b) legendre_b.2

/-- The point's coordinates are fractions of the group's. -/
def Point.Represents (p : Point) (P : Affine β) : Prop :=
  ∃ z t, z ≠ 0 ∧ t ≠ 0 ∧ Stands p.x (P.x * z) ∧ Stands p.z z ∧ Stands p.u (P.u * t) ∧ Stands p.t t

theorem represents_neutral : neutral.Represents Affine.neutral :=
  ⟨1, 1, one_ne_zero, one_ne_zero, stands_zero.congr (zero_mul 1).symm, stands_one, stands_zero.congr (zero_mul 1).symm,
    stands_one⟩

namespace Point.Represents
variable {p q : Point} {P Q : Affine β}

theorem of_scaled {c m d n e : K} (hc : c ≠ 0) (hd : d ≠ 0) (he : e ≠ 0) (hx : Stands p.x (c * m))
    (hz : Stands p.z (c * d)) (hu : Stands p.u (c * n)) (ht : Stands p.t (c * e)) (hX : P.x = m / d)
    (hU : P.u = n / e) :
    p.Represents P := by
  refine ⟨c * d, c * e, mul_ne_zero hc hd, mul_ne_zero hc he, hx.congr ?_, hz, hu.congr ?_, ht⟩
  · rw [hX]
    field_simp
  · rw [hU]
    field_simp

theorem add (hp : p.Represents P) (hq : q.Represents Q) : (p.add q).Represents (P.add Q coefficient) := by
  obtain ⟨z, t, hz0, ht0, hx, hz, hu, ht⟩ := hp
  obtain ⟨z', t', hz0', ht0', hx', hz', hu', ht'⟩ := hq
  obtain ⟨hX, hU⟩ := P.den_ne_zero Q coefficient
  have h₁ := hx.mul hx'
  have h₂ := hz.mul hz'
  have h₃ := hu.mul hu'
  have h₄ := ht.mul ht'
  have h₅ := ((hx.add hz).mul (hx'.add hz')).sub (h₁.add h₂)
  have h₆ := ((hu.add ht).mul (hu'.add ht')).sub (h₃.add h₄)
  have h₇ := h₁.add (h₂.mul stands_b)
  have h₈ := h₄.mul h₇
  have h₉ := h₃.mul ((h₅.mul (stands_bMul (k := 2) (by decide))).add (h₇.add h₇))
  have h₁₀ := (h₄.add (h₃.add h₃)).mul (h₅.add h₇)
  have hc : z * z' * (t * t') ≠ 0 := mul_ne_zero (mul_ne_zero hz0 hz0') (mul_ne_zero ht0 ht0')
  refine of_scaled hc hX hU (((h₁₀.sub h₈).mul stands_b).congr ?_) ((h₈.sub h₉).congr ?_)
    ((h₆.mul ((h₂.mul stands_b).sub h₁)).congr ?_) ((h₈.add h₉).congr ?_) rfl rfl
  · rw [Affine.numX]
    ring
  · rw [Affine.denX]
    push_cast
    ring
  · rw [Affine.numU]
    ring
  · rw [Affine.denU]
    push_cast
    ring

theorem double (hp : p.Represents P) : p.double.Represents (P.add P coefficient) := by
  obtain ⟨z, t, hz0, ht0, hx, hz, hu, ht⟩ := hp
  obtain ⟨hX, hU⟩ := P.den_ne_zero P coefficient
  obtain ⟨hhalf, hlast⟩ := P.half_ne_zero coefficient
  have hhalf := pow_ne_zero 2 hhalf
  have h₁ := hz.mul ht
  have h₂ := h₁.mul ht
  have hz₁ := h₁.mul hu
  have hw₁ := h₂.sub (hu.square.mul ((hx.add hz).add (hx.add hz)))
  have h₄ := hz₁.square
  have hc : (z * t ^ 2) ^ 2 ≠ 0 := pow_ne_zero 2 (mul_ne_zero hz0 (pow_ne_zero 2 ht0))
  refine of_scaled hc hhalf hlast ((h₄.mul (stands_bMul (k := 4) (by decide))).congr ?_) (hw₁.square.congr ?_)
    (((hw₁.add hz₁).square.sub (h₄.add hw₁.square)).congr ?_)
    (((h₂.square.add h₂.square).sub ((h₄.mul (stands_nat (n := 4) (by decide))).add hw₁.square)).congr ?_)
    ((div_eq_div_iff hX hhalf).mpr P.num_double) ((div_eq_div_iff hU hlast).mpr P.numU_double)
  · push_cast
    ring
  · rw [Affine.half]
    ring
  · rw [Affine.half]
    ring
  · rw [Affine.half]
    push_cast
    ring

theorem add_comm (hp : p.Represents P) (hq : q.Represents Q) : p.add q = q.add p := by
  have hcomm : ∀ {a b : Element} {x y : K}, Stands a x → Stands b y → Gfp5.mul a b = Gfp5.mul b a :=
    fun hx hy => ((hx.mul hy).eq_iff (hy.mul hx)).mp (mul_comm _ _)
  obtain ⟨z, t, -, -, hx, hz, hu, ht⟩ := hp
  obtain ⟨z', t', -, -, hx', hz', hu', ht'⟩ := hq
  unfold Point.add
  rw [hcomm hx hx', hcomm hz hz', hcomm hu hu', hcomm ht ht', hcomm (hx.add hz) (hx'.add hz'),
    hcomm (hu.add ht) (hu'.add ht')]

theorem encode (hp : p.Represents P) : Stands p.encode P.u⁻¹ := by
  obtain ⟨z, t, -, ht0, -, -, hu, ht⟩ := hp
  refine (ht.mul hu.inverseOrZero).congr ?_
  rw [mul_inv_rev, mul_inv_cancel_left₀ ht0]

end Point.Represents

theorem four_ne_zero : (4 : K) ≠ 0 := (by norm_num : (2 : K) * 2 = 4) ▸ mul_ne_zero two_ne_zero two_ne_zero

theorem stands_generator : Stands generator.x (element generator.x) := Canonical.stands (by unfold Canonical; decide)

theorem represents_generator : ∃ P : Affine β, generator.Represents P := by
  have hx := stands_generator
  have hcurve : (4⁻¹ : K) ^ 2 * (element generator.x ^ 2 + 2 * element generator.x + β) = element generator.x := by
    have hline := (((hx.square.add (stands_two.mul hx)).add stands_b).eq_iff
      ((stands_nat (n := 16) (by decide)).mul hx)).mpr (by decide +kernel)
    have h4 := four_ne_zero
    rw [hline]
    field_simp
    norm_num
  have hgroup : ¬ IsSquare (element generator.x) := not_isSquare hx (by decide +kernel)
  refine ⟨⟨_, 4⁻¹, hcurve, .inr hgroup⟩, 1, 4, one_ne_zero, four_ne_zero, hx.congr (mul_one _).symm, stands_one, ?_, ?_⟩
  · exact stands_one.congr (inv_mul_cancel₀ four_ne_zero).symm
  · exact (stands_nat (n := 4) (by decide)).congr Nat.cast_ofNat

variable {w s : Element} {ω ρ ξ : K}

theorem stands_delta (hw : Stands w ω) :
    Stands (Gfp5.sub (square (Gfp5.sub (square w) a)) (bMul 4)) ((ω ^ 2 - 2) ^ 2 - 4 * β) :=
  (hw.square.sub stands_a).square.sub ((stands_bMul (by decide)).congr (by rw [Nat.cast_ofNat]))

theorem canonicalSqrt_cases {e : Element} {x : K} (hx : Stands e x) :
    (canonicalSqrt e = none ∧ ¬ IsSquare x) ∨ ∃ s ρ, canonicalSqrt e = some s ∧ Stands s ρ ∧ ρ ^ 2 = x := by
  cases h : sqrt e with
  | none => exact .inl ⟨by rw [canonicalSqrt, h]; rfl, hx.sqrt_eq_none.mp h⟩
  | some root =>
    obtain ⟨ρ, hρ, hsq⟩ := hx.sqrt_eq_some h
    rw [canonicalSqrt, h]
    cases hsign : sgn0 root
    · exact .inr ⟨root, ρ, by simp [hsign], hρ, hsq⟩
    · exact .inr ⟨neg root, -ρ, by simp [hsign], hρ.neg, by rw [neg_sq, hsq]⟩

/-- Whichever root is taken, the solution that is no square is chosen. -/
theorem stands_pointOf (hw : Stands w ω) (hs : Stands s ρ) (hρ : ρ ^ 2 = (ω ^ 2 - 2) ^ 2 - 4 * β) (hξ : ¬ IsSquare ξ)
    (hroot : ξ ^ 2 - (ω ^ 2 - 2) * ξ + β = 0) : Stands (pointOf w (some s)).x ξ := by
  have h2 := two_ne_zero
  have he := hw.square.sub stands_a
  have h₁ : Stands (div _ two) _ := (he.add hs).mul stands_two.inverseOrZero
  have h₂ : Stands (div _ two) _ := (he.sub hs).mul stands_two.inverseOrZero
  have hcases : (ρ - (2 * ξ - (ω ^ 2 - 2))) * (ρ + (2 * ξ - (ω ^ 2 - 2))) = 0 := by
    linear_combination hρ - 4 * hroot
  obtain h | h := mul_eq_zero.mp hcases
  · have hfirst : (ω ^ 2 - 2 + ρ) * 2⁻¹ = ξ := by
      field_simp
      linear_combination h
    rw [hfirst] at h₁
    rw [pointOf, (legendre_cases h₁).2.2 hξ]
    exact h₁
  · have hsecond : (ω ^ 2 - 2 - ρ) * 2⁻¹ = ξ := by
      field_simp
      linear_combination -h
    -- the solutions' product is `b`, so the other one is a square
    have hproduct : (ω ^ 2 - 2 + ρ) * 2⁻¹ * ξ = β := by
      field_simp
      linear_combination ξ * h - 2 * hroot
    have hlegendre := (legendre_cases h₁).2.1 (fun h0 => coefficient.ne_zero (by rw [← hproduct, h0, zero_mul]))
      (not_not.mp fun h => coefficient.nonsquare (hproduct ▸ isSquare_mul h hξ))
    rw [hsecond] at h₂
    rw [pointOf, hlegendre, if_pos rfl]
    exact h₂

theorem pointOf_neg (hw : Stands w ω) (hs : Stands s ρ) (hρ : ρ ^ 2 = (ω ^ 2 - 2) ^ 2 - 4 * β) :
    pointOf w (some s) = pointOf w (some (neg s)) := by
  have h2 := two_ne_zero
  have hroot : ∀ σ, σ ^ 2 = ρ ^ 2 → ((ω ^ 2 - 2 + σ) / 2) ^ 2 - (ω ^ 2 - 2) * ((ω ^ 2 - 2 + σ) / 2) + β = 0 := by
    intro σ hσ
    field_simp
    linear_combination hσ + hρ
  obtain ⟨σ, hσ, hξ⟩ : ∃ σ, σ ^ 2 = ρ ^ 2 ∧ ¬ IsSquare ((ω ^ 2 - 2 + σ) / 2) := by
    by_contra! hall
    have hproduct : (ω ^ 2 - 2 + ρ) / 2 * ((ω ^ 2 - 2 + -ρ) / 2) = β := by
      field_simp
      linear_combination -hρ
    exact coefficient.nonsquare (hproduct ▸ (hall ρ rfl).mul (hall (-ρ) (neg_sq ρ)))
  have hx := ((stands_pointOf hw hs hρ hξ (hroot σ hσ)).eq_iff
    (stands_pointOf hw hs.neg ((neg_sq ρ).trans hρ) hξ (hroot σ hσ))).mp rfl
  exact congrArg (fun x => Point.mk x one one w) hx

theorem decode_encode {p : Point} {P : Affine β} (hp : p.Represents P) :
    ∃ q, decode p.encode = some q ∧ q.Represents P := by
  have h2 := two_ne_zero
  have hcurve := P.curve
  have hw := hp.encode
  by_cases hu : P.u = 0
  · have hneutral : P = Affine.neutral := Affine.eq_of_u_eq coefficient hu
    have hzero : isZero p.encode = true := hw.isZero.mpr (by rw [hu, inv_zero])
    obtain ⟨hnone, -⟩ | ⟨s, ρ, -, -, hsq⟩ := canonicalSqrt_cases (stands_delta hw)
    · refine ⟨neutral, ?_, hneutral ▸ represents_neutral⟩
      rw [decode, hnone, hzero]
      rfl
    · -- at zero there is no root: the discriminant is no square
      refine absurd ⟨ρ / 2, ?_⟩ coefficient.discriminant
      rw [hu, inv_zero] at hsq
      field_simp
      linear_combination -hsq
  · have hx : ¬ IsSquare P.x := P.group.resolve_left (mt (P.x_eq_zero_iff coefficient).mp hu)
    have hroot : P.x ^ 2 - (P.u⁻¹ ^ 2 - 2) * P.x + β = 0 := by
      field_simp
      linear_combination hcurve
    obtain ⟨-, hnot⟩ | ⟨s, ρ, hs, hstands, hsq⟩ := canonicalSqrt_cases (stands_delta hw)
    · refine absurd ⟨2 * P.x - (P.u⁻¹ ^ 2 - 2), ?_⟩ hnot
      linear_combination -4 * hroot
    · refine ⟨pointOf p.encode (some s), ?_, 1, P.u⁻¹, one_ne_zero, inv_ne_zero hu, ?_, stands_one,
        stands_one.congr ?_, hw⟩
      · rw [decode, hs]
        rfl
      · rw [mul_one]
        exact stands_pointOf hw hstands hsq hx hroot
      · rw [mul_inv_cancel₀ hu]

/-- A point is sent as the same words whatever its coordinates, and no other point is. -/
theorem encode_eq_iff {p q : Point} {P Q : Affine β} (hp : p.Represents P) (hq : q.Represents Q) :
    p.encode = q.encode ↔ P = Q := by
  rw [← hp.encode.eq_iff hq.encode, inv_inj]
  exact ⟨Affine.eq_of_u_eq coefficient, congrArg _⟩

/-- The generator doubled and the generator added to itself have different coordinates and one encoding, and
another one than the generator. -/
theorem encode_eq_iff_generator : ∃ P : Affine β, generator.Represents P ∧
    generator.double.x ≠ (generator.add generator).x ∧
    generator.double.encode = (generator.add generator).encode ∧ P.add P coefficient ≠ P := by
  obtain ⟨P, hP⟩ := represents_generator
  refine ⟨P, hP, by decide +kernel, ?_, ?_⟩
  · exact (encode_eq_iff hP.double (hP.add hP)).mpr rfl
  · exact (encode_eq_iff hP.double hP).not.mp (by decide +kernel)

/-- **Curve formulas.** `add` returns a point of the group, the same in either order and with the
neutral element as identity; `double` returns the sum of a point with itself; `decode` reads back what
`encode` writes, and either root gives the same point. -/
theorem curve_formulas :
    (∀ (p q : Point) (P Q : Affine β), p.Represents P → q.Represents Q →
      (∃ R, (p.add q).Represents R) ∧ p.add q = q.add p) ∧
    (∀ (p : Point) (P : Affine β), p.Represents P →
      (p.add neutral).Represents P ∧ (neutral.add p).Represents P ∧
      (∃ R, p.double.Represents R ∧ (p.add p).Represents R) ∧ ∃ q, decode p.encode = some q ∧ q.Represents P) ∧
    ∀ w s, Canonical w → Canonical s → Gfp5.mul s s = Gfp5.sub (square (Gfp5.sub (square w) a)) (bMul 4) →
      pointOf w (some s) = pointOf w (some (neg s)) := by
  refine ⟨fun p q P Q hp hq => ⟨⟨_, hp.add hq⟩, hp.add_comm hq⟩, ?_, ?_⟩
  · intro p P hp
    have hneutral := hp.add represents_neutral
    rw [Affine.add_neutral] at hneutral
    refine ⟨hneutral, ?_, ⟨_, hp.double, hp.add hp⟩, decode_encode hp⟩
    rwa [← hp.add_comm represents_neutral]
  · intro w s hw hs h
    refine pointOf_neg hw.stands hs.stands ?_
    rw [sq]
    exact ((hs.stands.mul hs.stands).eq_iff (stands_delta hw.stands)).mpr h

theorem curve_formulas_generator : ∃ P : Affine β, generator.Represents P ∧ (generator.add neutral).Represents P ∧
    (neutral.add generator).Represents P ∧
    (∃ R, generator.double.Represents R ∧ (generator.add generator).Represents R) ∧
    ∃ q, decode generator.encode = some q ∧ q.Represents P := by
  obtain ⟨P, hP⟩ := represents_generator
  exact ⟨P, hP, curve_formulas.2.1 generator P hP⟩

end LiquidityMigration.Venue.Lighter.Ecgfp5
