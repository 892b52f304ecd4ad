import LiquidityMigration.Venue.Lighter.Goldilocks

/- The quintic extension computes in the field `Fp[X]/(X^5 - 3)` (`K`), where raising to the power `p` scales the
   coefficients (`value_frobenius`). An element of the code stands for one of the field (`Stands`), operation by
   operation. Inverse, Legendre symbol and square root go through the norm, which is in the base field (`exists_norm`).
   The sign is that of the lowest coefficient, also where that is zero (`sgn0_eq`). -/
namespace LiquidityMigration.Venue.Lighter.Gfp5
open Goldilocks Polynomial List AdjoinRoot

/-- The fifth root of unity `X^(p-1)`. -/
def ζ : GF := 3 ^ ((goldilocks - 1) / 5)

theorem word_three : Word 3 3 := word_cast (by decide)

theorem word_dthRoot : Word dthRoot ζ := by
  have h := word_three.exp (e := (goldilocks - 1) / 5) (by decide)
  rwa [show exp 3 ((goldilocks - 1) / 5) = dthRoot by decide +kernel] at h

theorem ζ_pow : ζ ^ 5 = 1 := by
  rw [ζ, ← pow_mul]
  exact ZMod.pow_card_sub_one_eq_one ((word_three.eq_iff word_zero).not.mpr (by decide))

theorem ζ_pow_ne_one {i : Nat} (h0 : i ≠ 0) (hi : i < 5) : ζ ^ i ≠ 1 := by
  have hword := word_dthRoot.exp (e := i) (by unfold base; omega)
  refine (hword.eq_iff word_one).not.mpr ?_
  interval_cases i
  · contradiction
  all_goals decide +kernel

noncomputable def modulus : GF[X] := X ^ 5 - C 3

theorem modulus_irreducible : Irreducible modulus := by
  apply X_pow_sub_C_irreducible_of_prime Nat.prime_five
  intro b hb
  have h0 : b ≠ 0 := by
    rintro rfl
    exact (word_zero.eq_iff word_three).not.mpr (by decide) ((zero_pow (by decide)).symm.trans hb)
  have hpow : b ^ (5 * ((goldilocks - 1) / 5)) = ζ := by rw [ζ, ← hb, pow_mul]
  exact ζ_pow_ne_one one_ne_zero (by decide) (by rw [← hpow, pow_one]; exact ZMod.pow_card_sub_one_eq_one h0)

instance : Fact (Irreducible modulus) := ⟨modulus_irreducible⟩

/-- `Fp[X]/(X^5 - 3)`. -/
abbrev K := AdjoinRoot modulus

noncomputable abbrev of : GF →+* K := AdjoinRoot.of modulus

noncomputable abbrev r : K := AdjoinRoot.root modulus

theorem r_pow : r ^ 5 = of 3 := by
  have h := eval₂_root modulus
  rwa [modulus, eval₂_sub, eval₂_pow, eval₂_X, eval₂_C, sub_eq_zero] at h

noncomputable def value (c : Nat → GF) : K := ∑ i ∈ Finset.range 5, of (c i) * r ^ i

variable {c : Nat → GF} {d : Nat → GF}

theorem value_congr (h : ∀ i < 5, c i = d i) : value c = value d :=
  Finset.sum_congr rfl fun i hi => by rw [h i (Finset.mem_range.mp hi)]

theorem value_inj (h : value c = value d) : ∀ i < 5, c i = d i := by
  let f : GF[X] := ∑ i : Fin 5, C (c i - d i) * X ^ (i : Nat)
  have hroot : mk modulus f = 0 := by
    rw [← sub_eq_zero, value, value, ← Finset.sum_sub_distrib, Finset.sum_range] at h
    simpa [f, sub_mul] using h
  have hdegree : f.degree < modulus.degree := by
    rw [modulus, degree_X_pow_sub_C (by decide)]
    exact degree_sum_fin_lt _
  have hzero : f = 0 := eq_zero_of_dvd_of_degree_lt (mk_eq_zero.mp hroot) hdegree
  intro i hi
  have hcoeff : f.coeff i = c i - d i := by
    simp only [f, finsetSum_coeff, coeff_C_mul_X_pow]
    rw [Finset.sum_eq_single ⟨i, hi⟩]
    · simp
    · intro j _ hj
      rw [if_neg (fun h => hj (Fin.ext h.symm))]
    · simp
  rw [hzero, coeff_zero] at hcoeff
  exact sub_eq_zero.mp hcoeff.symm

theorem exists_value (z : K) : ∃ c, value c = z := by
  obtain ⟨f, hf, rfl⟩ := (powerBasis modulus_irreducible.ne_zero).exists_eq_aeval z
  rw [powerBasis_dim, modulus, natDegree_X_pow_sub_C] at hf
  refine ⟨f.coeff, ?_⟩
  rw [aeval_eq_sum_range' hf, value]
  simp [Algebra.smul_def]

theorem value_base (x : GF) : value (fun i => if i = 0 then x else 0) = of x := by
  simp [value, Finset.sum_range_succ]

instance : CharP K goldilocks := charP_of_injective_ringHom of.injective goldilocks

theorem value_frobenius (c : Nat → GF) (k : Nat) : value c ^ goldilocks ^ k = value (fun i => c i * (ζ ^ k) ^ i) := by
  have hr : r ^ goldilocks = of ζ * r := by
    rw [ζ, map_pow, ← r_pow, ← pow_mul, ← pow_succ]
    rfl
  induction k with
  | zero => simp
  | succ k ih =>
    rw [pow_succ, pow_mul, ih, value, sum_pow_char, value]
    refine Finset.sum_congr rfl fun i _ => ?_
    rw [mul_pow, ← map_pow, ZMod.pow_card, pow_right_comm r, hr, mul_pow, ← mul_assoc, ← map_pow, ← map_mul, mul_assoc,
      ← mul_pow, ← pow_succ]

def Canonical (a : Element) : Prop := ∀ i < 5, coeff a i < goldilocks

noncomputable def element (a : Element) : K := value fun i => coeff a i

def Stands (a : Element) (z : K) : Prop := Canonical a ∧ element a = z

variable {a b : Element} {x y : K}

theorem Canonical.stands (ha : Canonical a) : Stands a (element a) := ⟨ha, rfl⟩

theorem Stands.words (h : Stands a x) : ∃ c, value c = x ∧ ∀ i < 5, Word (coeff a i) (c i) :=
  ⟨_, h.2, fun i hi => word_cast (h.1 i hi)⟩

theorem stands_of_words (h : ∀ i < 5, Word (coeff a i) (c i)) : Stands a (value c) :=
  ⟨fun i hi => (h i hi).1, value_congr fun i hi => (h i hi).2⟩

theorem coeff_ofCoeffs (f : Nat → Nat) {i : Nat} (hi : i < 5) : coeff (ofCoeffs f) i = f i % base := by
  simp [coeff, ofCoeffs, hi]

theorem stands_ofCoeffs {f : Nat → Nat} (h : ∀ i < 5, Word (f i) (c i)) : Stands (ofCoeffs f) (value c) := by
  refine stands_of_words fun i hi => ?_
  rw [coeff_ofCoeffs f hi, Nat.mod_eq_of_lt ((h i hi).1.trans (by decide))]
  exact h i hi

theorem Stands.congr (hx : Stands a x) (h : x = y) : Stands a y := h ▸ hx

theorem ext_coeff (h : ∀ i < 5, coeff a i = coeff b i) : a = b := by
  have hlimbs : a.limbs = b.limbs := by
    apply ext_getElem (a.length_eq.trans b.length_eq.symm)
    intro i ha hb
    simpa [coeff, ha, hb] using h i (a.length_eq ▸ ha)
  cases a
  cases b
  cases hlimbs
  rfl

theorem Stands.eq_iff (hx : Stands a x) (hy : Stands b y) : x = y ↔ a = b := by
  constructor
  · intro h
    have hvalue := value_inj ((hx.2.trans h).trans hy.2.symm)
    exact ext_coeff fun i hi => ((word_cast (hx.1 i hi)).eq_iff (word_cast (hy.1 i hi))).mp (hvalue i hi)
  · rintro rfl
    exact hx.2.symm.trans hy.2

theorem Stands.add (hx : Stands a x) (hy : Stands b y) : Stands (add a b) (x + y) := by
  obtain ⟨c, rfl, hc⟩ := hx.words
  obtain ⟨d, rfl, hd⟩ := hy.words
  refine (stands_ofCoeffs fun i hi => (hc i hi).add (hd i hi)).congr ?_
  simp [value, add_mul, Finset.sum_add_distrib]

theorem Stands.sub (hx : Stands a x) (hy : Stands b y) : Stands (sub a b) (x - y) := by
  obtain ⟨c, rfl, hc⟩ := hx.words
  obtain ⟨d, rfl, hd⟩ := hy.words
  refine (stands_ofCoeffs fun i hi => (hc i hi).sub (hd i hi)).congr ?_
  simp [value, sub_mul, Finset.sum_sub_distrib]

variable {m : GF} {n : Nat}

theorem Stands.scalarMul (hx : Stands a x) (hn : Word n m) : Stands (scalarMul a n) (x * of m) := by
  obtain ⟨c, rfl, hc⟩ := hx.words
  refine (stands_ofCoeffs fun i hi => (hc i hi).mul hn).congr ?_
  simp [value, Finset.sum_mul, mul_right_comm]

/-- The coefficient of degree `k` of a product. -/
def convolution (c d : Nat → GF) (k : Nat) : GF :=
  (List.range 5).foldl (fun acc i => acc + (if 5 ≤ i + (k + 5 - i) % 5 then 3 else 1) * (c i * d ((k + 5 - i) % 5))) 0

theorem value_mul (c d : Nat → GF) : value c * value d = value (convolution c d) := by
  simp [value, convolution, Finset.sum_range_succ, List.range, List.range.loop, ← r_pow]
  ring

theorem word_mulTerm (hc : ∀ i < 5, Word (coeff a i) (c i)) (hd : ∀ i < 5, Word (coeff b i) (d i)) (k : Nat) :
    Word ((List.range 5).foldl (mulTerm a b k) 0) (convolution c d k) := by
  refine foldl_rel word_zero fun i hi acc u hacc => ?_
  have hproduct := (hc i (mem_range.mp hi)).mul (hd ((k + 5 - i) % 5) (Nat.mod_lt _ (by decide)))
  unfold mulTerm
  dsimp only
  split
  · exact hacc.add (word_three.mul hproduct)
  · exact hacc.add (hproduct.congr (one_mul _).symm)

theorem Stands.mul (hx : Stands a x) (hy : Stands b y) : Stands (mul a b) (x * y) := by
  obtain ⟨c, rfl, hc⟩ := hx.words
  obtain ⟨d, rfl, hd⟩ := hy.words
  exact (stands_ofCoeffs fun k _ => word_mulTerm hc hd k).congr (value_mul c d).symm

theorem Stands.square (hx : Stands a x) : Stands (square a) (x ^ 2) := (hx.mul hx).congr (sq x).symm

theorem Stands.expPowerOf2 (hx : Stands a x) (n : Nat) : Stands (expPowerOf2 a n) (x ^ 2 ^ n) := by
  induction n generalizing a x with
  | zero => exact hx.congr (by simp)
  | succ n ih => exact (ih hx.square).congr (by rw [← pow_mul, ← pow_succ'])

theorem word_foldl {f : Nat → Nat} {g u : GF} (hf : ∀ a x, Word a x → Word (f a) (x * g)) (hn : Word n u) (k : Nat) :
    Word ((List.range k).foldl (fun z _ => f z) n) (u * g ^ k) := by
  induction k with
  | zero => exact hn.congr (by simp)
  | succ k ih =>
    rw [range_succ, foldl_append]
    exact (hf _ _ ih).congr (by rw [pow_succ, mul_assoc])

theorem Stands.repeatedFrobenius (hx : Stands a x) (k : Nat) : Stands (repeatedFrobenius a k) (x ^ goldilocks ^ k) := by
  obtain ⟨c, rfl, hc⟩ := hx.words
  have hζ : ζ ^ k = ζ ^ (k % 5) := by
    conv_lhs => rw [← Nat.mod_add_div k 5, pow_add, pow_mul, ζ_pow, one_pow, mul_one]
  rw [value_frobenius, hζ, Gfp5.repeatedFrobenius]
  split
  · next h => exact hx.congr (by simp [h])
  · next h =>
    refine stands_ofCoeffs fun i hi => (hc i hi).mul ?_
    have hroot : Word ((List.range (k % 5 - 1)).foldl (fun z _ => Goldilocks.mul dthRoot z) dthRoot) (ζ ^ (k % 5)) := by
      refine (word_foldl (fun a x h => (word_dthRoot.mul h).congr (mul_comm _ _)) word_dthRoot _).congr ?_
      rw [← pow_succ', Nat.sub_add_cancel (Nat.one_le_iff_ne_zero.mpr h)]
    exact (word_foldl (fun a x h => h.mul hroot) word_one i).congr (one_mul _)

theorem Stands.frobenius (hx : Stands a x) : Stands (frobenius a) (x ^ goldilocks) :=
  (hx.repeatedFrobenius 1).congr (by rw [pow_one])

theorem stands_fromBase (h : Word n m) : Stands (fromBase n) (of m) := by
  refine (stands_ofCoeffs fun i _ => ?_).congr (value_base m)
  split
  · rwa [canonicalWord_of_lt h.1]
  · exact word_zero

theorem stands_zero : Stands zero 0 := (stands_fromBase word_zero).congr (map_zero of)

theorem stands_one : Stands one 1 := (stands_fromBase word_one).congr (map_one of)

theorem Stands.coeff_zero (hx : Stands a (of m)) : Word (coeff a 0) m := by
  obtain ⟨c, hvalue, hc⟩ := hx.words
  rw [← value_base] at hvalue
  exact (hc 0 (by decide)).congr (value_inj hvalue 0 (by decide))

theorem Stands.lowest (hx : Stands a x) (hy : Stands b y) (h : x * y = of m) : Word (lowest a b) m := by
  obtain ⟨c, rfl, hc⟩ := hx.words
  obtain ⟨d, rfl, hd⟩ := hy.words
  rw [value_mul, ← value_base] at h
  have hzero := value_inj h 0 (by decide)
  have hword : ∀ i < 5, ∀ j < 5, Word (Goldilocks.mul (coeff a i) (coeff b j)) (c i * d j) :=
    fun i hi j hj => (hc i hi).mul (hd j hj)
  refine Word.congr (((hword 0 (by decide) 0 (by decide)).add (word_three.mul
    (((hword 1 (by decide) 4 (by decide)).add (hword 2 (by decide) 3 (by decide))).add
      ((hword 3 (by decide) 2 (by decide)).add (hword 4 (by decide) 1 (by decide))))))) ?_
  simp [convolution, List.range, List.range.loop] at hzero
  rw [← hzero]
  ring

theorem coeff_mem {i : Nat} (hi : i < 5) : coeff a i ∈ a.limbs := by
  simp [coeff, a.length_eq, hi]

theorem Stands.isZero (hx : Stands a x) : isZero a = true ↔ x = 0 := by
  rw [hx.eq_iff stands_zero]
  constructor
  · intro h
    refine ext_coeff fun i hi => ?_
    have hlimb := beq_iff_eq.mp (all_eq_true.mp h _ (coeff_mem hi))
    rw [← canonicalWord_of_lt (hx.1 i hi), hlimb]
    exact (by decide : ∀ i < 5, 0 = coeff zero i) i hi
  · rintro rfl
    rfl

noncomputable def cofactor (z : K) : K := z ^ (goldilocks + goldilocks ^ 2 + goldilocks ^ 3 + goldilocks ^ 4)

theorem exists_norm (z : K) : ∃ n : GF, z * cofactor z = of n := by
  obtain ⟨c, hc⟩ := exists_value (z * cofactor z)
  have hz : z ^ goldilocks ^ 5 = z := by
    obtain ⟨d, rfl⟩ := exists_value z
    rw [value_frobenius, ζ_pow]
    simp
  have hfixed : value c ^ goldilocks ^ 1 = value c := by
    calc value c ^ goldilocks ^ 1 = cofactor z * z ^ goldilocks ^ 5 := by
          rw [hc, cofactor]
          ring
      _ = value c := by rw [hz, hc, mul_comm]
  rw [value_frobenius, pow_one] at hfixed
  refine ⟨c 0, hc.symm.trans ?_⟩
  rw [← value_base]
  refine value_congr fun i hi => ?_
  split
  · next h0 => rw [h0]
  · next h0 =>
    by_contra hne
    exact ζ_pow_ne_one h0 hi (mul_left_cancel₀ hne ((value_inj hfixed i hi).trans (mul_one _).symm))

/-- A root of the cofactor. -/
noncomputable def rootCofactor (z : K) : K := z ^ (((goldilocks - 1) / 2 + 1) * (goldilocks + goldilocks ^ 3))

theorem rootCofactor_sq (z : K) : rootCofactor z ^ 2 = cofactor z := by
  rw [rootCofactor, cofactor, ← pow_mul]
  rfl

variable {n : GF}

theorem root_of_norm {s : GF} (h : x * cofactor x = of n) (hs : s ^ 2 = n) : (of s * (rootCofactor x)⁻¹) ^ 2 = x := by
  rw [mul_pow, inv_pow, ← map_pow, hs, ← h, rootCofactor_sq]
  by_cases h0 : x = 0
  · rw [h0, zero_mul, zero_mul]
  · exact mul_inv_cancel_right₀ (pow_ne_zero _ h0) x

theorem isSquare_iff_norm (h : x * cofactor x = of n) : IsSquare x ↔ IsSquare n := by
  constructor
  · rintro ⟨y, rfl⟩
    obtain ⟨m, hm⟩ := exists_norm y
    refine ⟨m, of.injective ?_⟩
    rw [← h, map_mul, ← hm, cofactor, cofactor, mul_pow, mul_mul_mul_comm]
  · rintro ⟨s, hs⟩
    exact ⟨_, (root_of_norm h (hs ▸ sq s)).symm.trans (sq _)⟩

theorem half_power {F : Type} [Field F] (u : F) :
    (u ^ 2 ^ 31) ^ 2 ^ 32 * (u ^ 2 ^ 31)⁻¹ = u ^ ((goldilocks - 1) / 2) := by
  by_cases h : u = 0
  · simp [h, goldilocks]
  · rw [← div_eq_mul_inv, div_eq_iff (pow_ne_zero _ h), ← pow_mul, ← pow_add _ ((goldilocks - 1) / 2)]
    rfl

section
variable (hx : Stands a x)
include hx

theorem Stands.inverseOrZero : Stands (inverseOrZero a) x⁻¹ := by
  unfold Gfp5.inverseOrZero
  split
  · next h => exact stands_zero.congr (by rw [hx.isZero.mp h, inv_zero])
  · next h =>
    obtain ⟨n, hn⟩ := exists_norm x
    have hne : of n ≠ 0 := hn ▸ mul_ne_zero (mt hx.isZero.mpr h) (pow_ne_zero _ (mt hx.isZero.mpr h))
    have he := hx.frobenius.mul hx.frobenius.frobenius
    have hg : Stands _ (cofactor x) := (he.mul (he.repeatedFrobenius 2)).congr (by
      rw [cofactor]
      ring)
    refine (hg.scalarMul (hx.lowest hg hn).inverseOrZero).congr (eq_inv_of_mul_eq_one_right ?_)
    rw [← mul_assoc, hn, map_inv₀, mul_inv_cancel₀ hne]

theorem Stands.legendre (h : x * cofactor x = of n) : Word (legendre a) (n ^ ((goldilocks - 1) / 2)) := by
  have hproduct := hx.frobenius.mul hx.frobenius.frobenius
  have hnorm : Stands _ (of n) := ((hx.mul hproduct).mul (hproduct.repeatedFrobenius 2)).congr (by
    rw [← h, cofactor]
    ring)
  have hpower := hnorm.coeff_zero.expPowerOf2 31
  exact ((hpower.expPowerOf2 32).mul hpower.inverseOrZero).congr (half_power n)

theorem legendre_cases : (x = 0 → legendre a = 0) ∧ (x ≠ 0 → IsSquare x → legendre a = 1) ∧
    (¬ IsSquare x → legendre a = goldilocks - 1) := by
  obtain ⟨n, hn⟩ := exists_norm x
  have hword := hx.legendre hn
  have hsquare := isSquare_iff_norm hn
  have heuler : n ≠ 0 → (IsSquare n ↔ n ^ ((goldilocks - 1) / 2) = 1) := ZMod.euler_criterion goldilocks
  have hzero : n = 0 ↔ x = 0 := by
    rw [← map_eq_zero of, ← hn, mul_eq_zero, cofactor, pow_eq_zero_iff (by decide), or_self]
  refine ⟨fun h => ?_, fun h0 h => ?_, fun h => ?_⟩
  · refine (hword.eq_iff word_zero).mp ?_
    rw [hzero.mpr h, zero_pow (by decide)]
  · exact (hword.eq_iff word_one).mp ((heuler (mt hzero.mp h0)).mp (hsquare.mp h))
  · have h0 : n ≠ 0 := fun h0 => h (hzero.mp h0 ▸ IsSquare.zero)
    refine (hword.eq_iff word_neg_one).mp ?_
    exact (ZMod.pow_div_two_eq_neg_one_or_one goldilocks h0).resolve_left (mt (heuler h0).mpr (mt hsquare.mpr h))

theorem sqrt_eq (h : x * cofactor x = of n) : ∃ ε g, Stands ε (rootCofactor x) ∧ Word g n ∧
    sqrt a = (Goldilocks.sqrt g).map (fun s => Gfp5.mul (fromBase s) (Gfp5.inverseOrZero ε)) := by
  have hv := hx.expPowerOf2 31
  have hd : Stands _ (x ^ ((goldilocks - 1) / 2 + 1)) := ((hx.mul (hv.expPowerOf2 32)).mul hv.inverseOrZero).congr (by
    rw [mul_assoc, half_power, pow_succ'])
  have he : Stands _ (rootCofactor x) := (hd.mul (hd.repeatedFrobenius 2)).frobenius.congr (by
    rw [rootCofactor]
    ring)
  refine ⟨_, _, he, hx.lowest he.square (by rw [rootCofactor_sq, h]), ?_⟩
  rw [Option.map_eq_bind]
  rfl

theorem Stands.sqrt_eq_none : sqrt a = none ↔ ¬ IsSquare x := by
  obtain ⟨n, hn⟩ := exists_norm x
  obtain ⟨ε, g, -, hg, hsqrt⟩ := sqrt_eq hx hn
  rw [hsqrt, Option.map_eq_none_iff, hg.sqrt_eq_none, isSquare_iff_norm hn]

theorem Stands.sqrt_eq_some (h : sqrt a = some b) : ∃ ρ, Stands b ρ ∧ ρ ^ 2 = x := by
  obtain ⟨n, hn⟩ := exists_norm x
  obtain ⟨ε, g, hε, hg, hsqrt⟩ := sqrt_eq hx hn
  rw [hsqrt, Option.map_eq_some_iff] at h
  obtain ⟨s, hs, rfl⟩ := h
  obtain ⟨root, hroot, hsq⟩ := hg.sqrt_eq_some hs
  exact ⟨_, (stands_fromBase hroot).mul hε.inverseOrZero, root_of_norm hn hsq⟩

end

/-- **Quintic extension arithmetic.** -/
theorem quintic_arithmetic :
    (∀ a b, Canonical a → Canonical b → Canonical (mul a b) ∧ element (mul a b) = element a * element b) ∧
    (∀ a k, Canonical a →
      Canonical (repeatedFrobenius a k) ∧ element (repeatedFrobenius a k) = element a ^ goldilocks ^ k) ∧
    (∀ a, Canonical a → a ≠ zero → mul (inverseOrZero a) a = one) ∧
    (∀ a, Canonical a → (a = zero → legendre a = 0) ∧ (a ≠ zero → IsSquare (element a) → legendre a = 1) ∧
      (¬ IsSquare (element a) → legendre a = goldilocks - 1)) ∧
    ∀ a, Canonical a → (∀ root, sqrt a = some root → Canonical root ∧ mul root root = a) ∧
      (∀ root, Canonical root → mul root root = a → (sqrt a).isSome) := by
  have hzero : ∀ a, Canonical a → (element a = 0 ↔ a = zero) := fun a ha => ha.stands.eq_iff stands_zero
  refine ⟨fun a b ha hb => ha.stands.mul hb.stands, fun a k ha => ha.stands.repeatedFrobenius k, ?_, ?_, ?_⟩
  · intro a ha h0
    refine ((ha.stands.inverseOrZero.mul ha.stands).eq_iff stands_one).mp ?_
    exact inv_mul_cancel₀ (mt (hzero a ha).mp h0)
  · intro a ha
    rw [ne_eq, ← hzero a ha]
    exact legendre_cases ha.stands
  · intro a ha
    constructor
    · intro root h
      obtain ⟨ρ, hρ, hsq⟩ := ha.stands.sqrt_eq_some h
      exact ⟨hρ.1, ((hρ.mul hρ).eq_iff ha.stands).mp ((sq ρ).symm.trans hsq)⟩
    · rintro root hroot rfl
      rw [Option.isSome_iff_ne_none, ne_eq, ha.stands.sqrt_eq_none, not_not]
      exact ⟨_, (hroot.stands.mul hroot.stands).2⟩

theorem sgn0_eq (a : Element) : sgn0 a = (canonicalWord (coeff a 0) % 2 == 0) := by
  have hrest : ∀ (rest : List Nat) (sign isZero : Bool), (isZero = true → sign = true) →
      (rest.foldl (fun (acc : Bool × Bool) limb =>
        (acc.1 || (acc.2 && canonicalWord limb % 2 == 0), acc.2 && canonicalWord limb == 0)) (sign, isZero)).1 =
          sign := by
    intro rest
    induction rest with
    | nil => exact fun _ _ _ => rfl
    | cons limb rest ih =>
      intro sign isZero h
      rw [foldl_cons, ih]
      · cases isZero
        · simp
        · simp [h rfl]
      · cases isZero
        · simp
        · simp [h rfl]
  obtain ⟨limbs, hlength, -⟩ := a
  cases limbs with
  | nil => cases hlength
  | cons limb rest =>
    rw [sgn0, foldl_cons, hrest]
    · simp [coeff]
    · intro hzero
      rw [Bool.true_and, beq_iff_eq] at hzero
      rw [hzero]
      rfl

theorem Stands.neg (hx : Stands a x) : Stands (neg a) (-x) := (stands_zero.sub hx).congr (zero_sub x)

theorem sgn0_neg (ha : Canonical a) : sgn0 (neg a) = (coeff a 0 == 0 || !sgn0 a) := by
  have hneg : Canonical (neg a) := ha.stands.neg.1
  have hlow := ha 0 (by decide)
  have hsub := sub_eq (a := 0) (by decide) hlow
  rw [sgn0_eq, sgn0_eq, canonicalWord_of_lt hlow, canonicalWord_of_lt (hneg 0 (by decide)), Gfp5.neg, Gfp5.sub,
    coeff_ofCoeffs _ (by decide), show coeff zero 0 = 0 by decide, Bool.eq_iff_iff, Bool.or_eq_true, Bool.not_eq_true',
    beq_iff_eq, beq_iff_eq, beq_eq_false_iff_ne]
  unfold goldilocks base at *
  omega

theorem neg_neg_eq (ha : Canonical a) : neg (neg a) = a :=
  (ha.stands.neg.neg.eq_iff ha.stands).mp (neg_neg _)

theorem mul_self_eq_iff (ha : Canonical a) (hb : Canonical b) : mul b b = mul a a ↔ b = a ∨ b = neg a := by
  have hx := ha.stands
  have hy := hb.stands
  rw [← (hy.mul hy).eq_iff (hx.mul hx), ← hy.eq_iff hx, ← hy.eq_iff hx.neg, mul_self_eq_mul_self_iff]

/-- `canonical_sqrt` returns one of the two roots, the one of sign false where they differ. -/
theorem canonicalSqrt_mul_self (ha : Canonical a) : canonicalSqrt (mul a a) = some (if sgn0 a then neg a else a) ∨
      coeff a 0 = 0 ∧ canonicalSqrt (mul a a) = some a := by
  have hx := ha.stands
  have hsome : sqrt (mul a a) ≠ none := by
    rw [ne_eq, (hx.mul hx).sqrt_eq_none, not_not]
    exact ⟨_, rfl⟩
  obtain ⟨b, hb⟩ := Option.ne_none_iff_exists'.mp hsome
  obtain ⟨ρ, hρ, hsq⟩ := (hx.mul hx).sqrt_eq_some hb
  have hroot := (mul_self_eq_iff ha hρ.1).mp (((hρ.mul hρ).eq_iff (hx.mul hx)).mp ((sq ρ).symm.trans hsq))
  have hcanonical : canonicalSqrt (mul a a) = some (if sgn0 b then neg b else b) := by
    rw [canonicalSqrt, hb]
    exact (apply_ite some _ _ _).symm
  rw [hcanonical]
  obtain rfl | rfl := hroot
  · exact .inl rfl
  · rw [sgn0_neg ha, neg_neg_eq ha]
    by_cases h0 : coeff a 0 = 0
    · simp [h0]
    · cases sgn0 a <;> simp [h0]

/-- **Canonical root sign.** Of the two roots of a square exactly one has the sign false, and `canonical_sqrt` returns
it, if and only if their lowest coefficient is not zero. -/
theorem canonical_root_sign {e : Element} (he : Canonical e) :
    (∃ root, (∀ r, Canonical r ∧ mul r r = mul e e ∧ sgn0 r = false ↔ r = root) ∧
      canonicalSqrt (mul e e) = some root) ↔ coeff e 0 ≠ 0 := by
  have hflip := sgn0_neg he
  constructor
  · rintro ⟨root, hroot, -⟩ h0
    obtain ⟨hcanonical, hsquare, hsign⟩ := (hroot root).mpr rfl
    obtain rfl | rfl := (mul_self_eq_iff he hcanonical).mp hsquare
    · rw [sgn0_eq, h0] at hsign
      cases hsign
    · rw [hflip, h0] at hsign
      cases hsign
  · intro h0
    rw [beq_false_of_ne h0, Bool.false_or] at hflip
    refine ⟨_, fun r => ?_, (canonicalSqrt_mul_self he).resolve_right fun h => h0 h.1⟩
    constructor
    · rintro ⟨hcanonical, hsquare, hsign⟩
      obtain rfl | rfl := (mul_self_eq_iff he hcanonical).mp hsquare
      · rw [hsign]
        rfl
      · rw [hflip, Bool.not_eq_false'] at hsign
        rw [hsign, if_pos rfl]
    · rintro rfl
      cases hsign : sgn0 e
      · exact ⟨he, rfl, hsign⟩
      · have hneg : Canonical (neg e) := he.stands.neg.1
        exact ⟨hneg, (mul_self_eq_iff he hneg).mpr (.inr rfl), by rw [if_pos rfl, hflip, hsign]; rfl⟩

/-- `X`, whose square has the two roots `X` and `-X`. -/
def xElement : Element := ofCoeffs fun i => if i = 1 then 1 else 0

/-- Both roots of `X^2` have the sign true, and so has the root `canonical_sqrt` returns. -/
theorem leading_zero_counts_as_even :
    mul xElement xElement = ofCoeffs (fun i => if i = 2 then 1 else 0) ∧ sgn0 xElement = true ∧
      sgn0 (neg xElement) = true ∧ (canonicalSqrt (mul xElement xElement)).map sgn0 = some true := by
  decide +kernel

theorem canonical_root_sign_one : ∃ root, (∀ r, Canonical r ∧ mul r r = mul one one ∧ sgn0 r = false ↔ r = root) ∧
      canonicalSqrt (mul one one) = some root :=
  (canonical_root_sign stands_one.1).mpr (by decide)

end LiquidityMigration.Venue.Lighter.Gfp5
