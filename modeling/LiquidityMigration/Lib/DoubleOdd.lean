import Mathlib

/- Curves `y^2 = x (x^2 + 2 x + b)` over a finite field, in the coordinates `x` and `u = x / y`, where neither `b` nor
   `1 - b` is a square. The points whose `x` is zero or no square are closed under one formula for the sum (`add`): its
   denominators never vanish (`den_ne_zero`), and doubling is a case of it (`num_double`, `numU_double`). -/
namespace DoubleOdd

variable {F : Type} [Field F]

theorem isSquare_mul [Finite F] {x y : F} (hx : ¬ IsSquare x) (hy : ¬ IsSquare y) : IsSquare (x * y) := by
  classical
  have := Fintype.ofFinite F
  have h0 : x * y ≠ 0 := mul_ne_zero (fun h => hx (h ▸ IsSquare.zero)) (fun h => hy (h ▸ IsSquare.zero))
  rw [← quadraticChar_one_iff_isSquare h0, map_mul, quadraticChar_neg_one_iff_not_isSquare.mpr hx,
    quadraticChar_neg_one_iff_not_isSquare.mpr hy]
  rfl

structure Coefficient (b : F) : Prop where
  nonsquare : ¬ IsSquare b
  discriminant : ¬ IsSquare (1 - b)

@[ext] structure Affine (b : F) where
  (x u : F)
  curve : u ^ 2 * (x ^ 2 + 2 * x + b) = x
  group : x = 0 ∨ ¬ IsSquare x

variable {b : F}

namespace Coefficient
variable (hb : Coefficient b)
include hb

theorem ne_zero : b ≠ 0 := fun h => hb.nonsquare (h ▸ IsSquare.zero)

theorem quadratic_ne_zero (x : F) : x ^ 2 + (x + x) + b ≠ 0 := by
  intro h
  exact hb.discriminant ⟨x + 1, by linear_combination -h⟩

theorem mul_sq (c : F) : b * c ^ 2 = 0 ∨ ¬ IsSquare (b * c ^ 2) := by
  by_cases hc : c = 0
  · exact .inl (by rw [hc]; ring)
  · refine .inr fun ⟨y, hy⟩ => hb.nonsquare ⟨y / c, ?_⟩
    field_simp
    linear_combination hy

end Coefficient

namespace Affine

theorem neutral_curve (b : F) : (0 : F) ^ 2 * (0 ^ 2 + 2 * 0 + b) = 0 := by ring

def neutral : Affine b := ⟨0, 0, neutral_curve b, .inl rfl⟩

variable (P Q : Affine b)

def numX : F := b * (P.x + Q.x + (P.u * Q.u + P.u * Q.u) * (P.x + Q.x + P.x * Q.x + b))

def denX : F := P.x * Q.x + b - (P.u * Q.u + P.u * Q.u) * (b * (P.x + Q.x) + P.x * Q.x + b)

def numU : F := (P.u + Q.u) * (b - P.x * Q.x)

def denU : F := P.x * Q.x + b + (P.u * Q.u + P.u * Q.u) * (b * (P.x + Q.x) + P.x * Q.x + b)

def quadratics : F := (P.x ^ 2 + (P.x + P.x) + b) * (Q.x ^ 2 + (Q.x + Q.x) + b)

theorem mul_quadratics : (P.u * Q.u) ^ 2 * P.quadratics Q = P.x * Q.x := by
  unfold quadratics
  linear_combination Q.u ^ 2 * (Q.x ^ 2 + 2 * Q.x + b) * P.curve + P.x * Q.curve

theorem squares_quadratics :
    (P.u ^ 2 + Q.u ^ 2) * P.quadratics Q = (P.x + Q.x) * (P.x * Q.x + b) + 4 * (P.x * Q.x) := by
  unfold quadratics
  linear_combination (Q.x ^ 2 + 2 * Q.x + b) * P.curve + (P.x ^ 2 + 2 * P.x + b) * Q.curve

/-- In the sum and the product of the two `x`, which keeps the identities below small. -/
theorem quadratics_eq : P.quadratics Q = (P.x * Q.x + b) * (P.x * Q.x + b + 2 * (P.x + Q.x)) +
    b * ((P.x + Q.x) ^ 2 - 4 * (P.x * Q.x)) + 4 * (P.x * Q.x) := by
  unfold quadratics
  ring

def form : F := (P.x * Q.x + b + (P.x + Q.x)) ^ 2 - (1 - b) * (P.x + Q.x) ^ 2

theorem den_mul : P.quadratics Q * (P.denX Q * P.denU Q) = (P.x * Q.x - b) ^ 2 * P.form Q := by
  have h := P.mul_quadratics Q
  have hm := P.quadratics_eq Q
  unfold denX denU form
  generalize P.x + Q.x = s, P.x * Q.x = p, P.u * Q.u = w, P.quadratics Q = m at h hm ⊢
  linear_combination (p + b) ^ 2 * hm - 4 * (b * s + p + b) ^ 2 * h

theorem num_sq : P.numX Q ^ 2 + 2 * P.numX Q * P.denX Q + b * P.denX Q ^ 2 =
    b * (1 + 4 * (b - 1) * (P.u * Q.u) ^ 2) * P.form Q := by
  unfold numX denX form
  generalize P.x + Q.x = s, P.x * Q.x = p, P.u * Q.u = w
  ring

theorem num_mul : P.quadratics Q * ((P.u + Q.u) ^ 2 * (b * (1 + 4 * (b - 1) * (P.u * Q.u) ^ 2))) =
    P.numX Q * P.denU Q := by
  have hmul := P.mul_quadratics Q
  have hsquares := P.squares_quadratics Q
  have hm := P.quadratics_eq Q
  unfold numX denU
  rw [add_sq', mul_assoc 2]
  generalize P.x + Q.x = s, P.x * Q.x = p, P.u * Q.u = w, P.u ^ 2 + Q.u ^ 2 = e,
    P.quadratics Q = m at hmul hsquares hm ⊢
  linear_combination b * (1 + 4 * (b - 1) * w ^ 2) * hsquares - 4 * b * (1 - 2 * (b - 1) * w) * hmul +
    2 * b * w * (1 + 2 * w) * hm

theorem num_sub : P.numX Q * (P.u - Q.u) ^ 2 * (P.x * Q.x) = b * ((P.x - Q.x) * (P.u * Q.u)) ^ 2 * P.denX Q := by
  have hmul := P.mul_quadratics Q
  have hsquares := P.squares_quadratics Q
  have hscaled : P.numX Q * (P.u - Q.u) ^ 2 * P.quadratics Q = b * (P.x - Q.x) ^ 2 * P.denX Q := by
    have hm := P.quadratics_eq Q
    have hx : (P.x - Q.x) ^ 2 = (P.x + Q.x) ^ 2 - 4 * (P.x * Q.x) := by ring
    rw [hx, sub_sq', mul_assoc 2]
    unfold numX denX
    generalize P.x + Q.x = s, P.x * Q.x = p, P.u * Q.u = w, P.u ^ 2 + Q.u ^ 2 = e,
      P.quadratics Q = m at hmul hsquares hm ⊢
    linear_combination b * (s + 2 * w * (s + p + b)) * hsquares - 4 * b * (s + p + b) * hmul - 2 * b * w * s * hm
  linear_combination (P.u * Q.u) ^ 2 * hscaled - P.numX Q * (P.u - Q.u) ^ 2 * hmul

/-- The root of the doubled point's denominator. -/
def half : F := 1 - (P.u ^ 2 + P.u ^ 2) * (P.x + 1)

theorem half_sq : P.x * P.half ^ 2 = P.u ^ 2 * P.denX P := by
  unfold half denX
  linear_combination (4 * P.u ^ 2 * P.x - 1 + 2 * P.u ^ 2) * P.curve

theorem num_double : P.numX P * P.half ^ 2 = b * (2 * P.u) ^ 2 * P.denX P := by
  have hnum : P.numX P = 4 * b * P.x := by
    unfold numX
    linear_combination 2 * b * P.curve
  rw [hnum]
  linear_combination 4 * b * P.half_sq

theorem numU_double : P.numU P * (2 - 4 * P.u ^ 2 - P.half ^ 2) = 2 * P.u * P.half * P.denU P := by
  unfold numU denU half
  linear_combination 2 * P.u * (2 * P.x + 4 * P.x * (P.x + 1) * P.u ^ 2) * P.curve

theorem denU_double : P.u ^ 2 * P.denU P = P.x * (2 - 4 * P.u ^ 2 - P.half ^ 2) := by
  unfold denU half
  linear_combination (1 + 2 * P.u ^ 2 + 4 * P.u ^ 2 * P.x) * P.curve

variable (hb : Coefficient b)
include hb

theorem x_eq_zero_iff : P.x = 0 ↔ P.u = 0 := by
  have hcurve := P.curve
  constructor
  · intro h
    simpa [h, hb.ne_zero] using hcurve
  · intro h
    simpa [h] using hcurve.symm

theorem quadratics_ne_zero : P.quadratics Q ≠ 0 := mul_ne_zero (hb.quadratic_ne_zero _) (hb.quadratic_ne_zero _)

theorem form_ne_zero : P.form Q ≠ 0 := by
  unfold form
  intro h
  by_cases hs : P.x + Q.x = 0
  · have hzero : P.x * Q.x + b = 0 := by simpa [hs] using h
    exact hb.nonsquare ⟨P.x, by linear_combination hzero - P.x * hs⟩
  · refine hb.discriminant ⟨(P.x * Q.x + b + (P.x + Q.x)) / (P.x + Q.x), ?_⟩
    field_simp
    linear_combination -h

variable [Finite F]

theorem x_mul_ne : P.x * Q.x ≠ b := by
  intro h
  obtain hP | hP := P.group
  · exact hb.ne_zero (by rw [← h, hP, zero_mul])
  obtain hQ | hQ := Q.group
  · exact hb.ne_zero (by rw [← h, hQ, mul_zero])
  exact hb.nonsquare (h ▸ isSquare_mul hP hQ)

theorem den_ne_zero : P.denX Q ≠ 0 ∧ P.denU Q ≠ 0 := by
  rw [← mul_ne_zero_iff, ← mul_ne_zero_iff_left (P.quadratics_ne_zero Q hb), den_mul]
  exact mul_ne_zero (pow_ne_zero _ (sub_ne_zero.mpr (P.x_mul_ne Q hb))) (P.form_ne_zero Q hb)

theorem half_ne_zero : P.half ≠ 0 ∧ 2 - 4 * P.u ^ 2 - P.half ^ 2 ≠ 0 := by
  by_cases hu : P.u = 0
  · rw [half, hu]
    norm_num
  · obtain ⟨hX, hU⟩ := P.den_ne_zero P hb
    have hsq := P.half_sq
    have hdenU := P.denU_double
    constructor
    · intro h
      simp [h, hu, hX] at hsq
    · intro h
      simp [h, hu, hU] at hdenU

theorem eq_of_u_eq {P Q : Affine b} (h : P.u = Q.u) : P = Q := by
  have hP := P.curve
  have hQ := Q.curve
  refine Affine.ext ?_ h
  rw [← h] at hQ
  by_contra hne
  have hsum : P.u ^ 2 * (P.x + Q.x + 2) = 1 := by
    apply mul_left_cancel₀ (sub_ne_zero.mpr hne)
    linear_combination hP - hQ
  have hu : P.u ≠ 0 := by
    intro h0
    simp [h0] at hsum
  refine P.x_mul_ne Q hb (mul_left_cancel₀ (pow_ne_zero 2 hu) ?_)
  linear_combination P.x * hsum - hP

theorem curve_add : (P.numU Q / P.denU Q) ^ 2 * ((P.numX Q / P.denX Q) ^ 2 + 2 * (P.numX Q / P.denX Q) + b) =
    P.numX Q / P.denX Q := by
  obtain ⟨hX, hU⟩ := P.den_ne_zero Q hb
  have hnumU : P.numU Q ^ 2 = (P.u + Q.u) ^ 2 * (P.x * Q.x - b) ^ 2 := by
    unfold numU
    ring
  field_simp
  apply mul_left_cancel₀ (P.quadratics_ne_zero Q hb)
  have hsq := P.num_sq Q
  have hmul := P.num_mul Q
  have hden := P.den_mul Q
  rw [hnumU]
  generalize (P.u + Q.u) ^ 2 = v, (P.x * Q.x - b) ^ 2 = d, P.quadratics Q = m, P.form Q = f, P.numX Q = n,
    P.denX Q = x, P.denU Q = t, b * (1 + 4 * (b - 1) * (P.u * Q.u) ^ 2) = c at hsq hmul hden ⊢
  linear_combination m * (v * d) * hsq + d * f * hmul - n * t * hden

theorem group_add : P.numX Q / P.denX Q = 0 ∨ ¬ IsSquare (P.numX Q / P.denX Q) := by
  have hden := (P.den_ne_zero Q hb).1
  have hratio : ∀ y z, y ≠ 0 → P.numX Q * y ^ 2 = b * z ^ 2 * P.denX Q → P.numX Q / P.denX Q = b * (z / y) ^ 2 := by
    intro y z hy h
    field_simp
    linear_combination h
  by_cases hu : P.u = Q.u
  · obtain rfl := eq_of_u_eq hb hu
    rw [hratio _ _ (P.half_ne_zero hb).1 P.num_double]
    exact hb.mul_sq _
  by_cases hP : P.x = 0
  · have hQ : P.numX Q / P.denX Q = Q.x := by simp [numX, denX, hP, (P.x_eq_zero_iff hb).mp hP, hb.ne_zero]
    rw [hQ]
    exact Q.group
  by_cases hQ : Q.x = 0
  · have hP : P.numX Q / P.denX Q = P.x := by simp [numX, denX, hQ, (Q.x_eq_zero_iff hb).mp hQ, hb.ne_zero]
    rw [hP]
    exact P.group
  -- two points of distinct `u`, neither of them neutral
  obtain ⟨y, hy⟩ := isSquare_mul (P.group.resolve_left hP) (Q.group.resolve_left hQ)
  have hy0 : y ≠ 0 := by
    rintro rfl
    simp [hP, hQ] at hy
  have hsub : P.numX Q * ((P.u - Q.u) * y) ^ 2 = b * ((P.x - Q.x) * (P.u * Q.u)) ^ 2 * P.denX Q := by
    rw [← num_sub, hy]
    ring
  rw [hratio _ _ (mul_ne_zero (sub_ne_zero.mpr hu) hy0) hsub]
  exact hb.mul_sq _

def add : Affine b where
  x := P.numX Q / P.denX Q
  u := P.numU Q / P.denU Q
  curve := P.curve_add Q hb
  group := P.group_add Q hb

theorem add_neutral : P.add neutral hb = P := by
  apply Affine.ext
  · simp [add, numX, denX, neutral, hb.ne_zero]
  · simp [add, numU, denU, neutral, hb.ne_zero]

end Affine

end DoubleOdd
