import LiquidityMigration.Lib.TonelliShanks
import LiquidityMigration.Venue.Lighter.Ecgfp5

/- The base field computes in `ZMod p`. The words the operations leave are canonical and
   stand for the exact result (`add_eq`, `sub_eq`, `reduce128_eq`), whatever wraps on
   the way. From there on a word stands for an element of the field (`Word`): powers
   follow by their loop, with them that `p` is prime (`goldilocks_prime`), and inverses.
   The square root is an instance of `TonelliShanks.Loop`: its loops end and nothing
   underflows (`SqrtRun`). -/
namespace LiquidityMigration.Venue.Lighter.Goldilocks
open ZMod

abbrev GF := ZMod goldilocks

variable {a b e : Nat}

theorem canonicalWord_of_lt (h : a < goldilocks) : canonicalWord a = a := if_neg (not_le.mpr h)

theorem canonicalWord_eq (h : a < base) : canonicalWord a = a % goldilocks := by
  unfold canonicalWord
  split
  · next hle =>
    rw [Nat.mod_eq_sub_mod hle, Nat.mod_eq_of_lt]
    unfold base goldilocks at *
    omega
  · next hlt => exact (Nat.mod_eq_of_lt (not_le.mp hlt)).symm

theorem add_eq (ha : a < goldilocks) (hb : b < goldilocks) : add a b = (a + b) % goldilocks := by
  unfold add overflowingAdd overflowingSub
  dsimp only
  by_cases hcarry : base ≤ a + b
  · rw [decide_eq_true hcarry, Bool.true_or, if_pos rfl]
    unfold base goldilocks at *
    omega
  · by_cases hless : (a + b) % base < goldilocks
    · rw [decide_eq_false hcarry, decide_eq_true hless, Bool.not_true, Bool.or_self, if_neg Bool.false_ne_true]
      unfold base goldilocks at *
      omega
    · rw [decide_eq_false hcarry, decide_eq_false hless, Bool.not_false, Bool.or_true, if_pos rfl]
      unfold base goldilocks at *
      omega

theorem sub_eq (ha : a < goldilocks) (hb : b < goldilocks) : (sub a b : Int) = ((a : Int) - b) % goldilocks := by
  simp only [sub, overflowingSub, base, goldilocks, decide_eq_true_eq] at *
  split
  · omega
  · omega

def neg (a : Nat) : Nat := if a = 0 then 0 else goldilocks - a

theorem neg_eq (ha : a < goldilocks) : (neg a : Int) = -(a : Int) % goldilocks := by
  unfold neg goldilocks at *
  split
  · omega
  · omega

theorem reduce128_eq {x : Nat} (hx : x < 2 ^ 128) : reduce128 x = x % goldilocks := by
  have hlo : x % base < base := Nat.mod_lt _ base_pos
  have hhi : x / base / 2 ^ 32 < 2 ^ 32 := by
    unfold base
    omega
  have hlow : x / base % 2 ^ 32 < 2 ^ 32 := Nat.mod_lt _ (by decide)
  have hword : x = x % base + base * (x / base % 2 ^ 32 + 2 ^ 32 * (x / base / 2 ^ 32)) := by
    rw [Nat.mod_add_div, Nat.mod_add_div]
  conv_rhs => rw [hword]
  unfold reduce128 overflowingAdd overflowingSub
  dsimp only
  generalize x % base = lo at *
  generalize x / base % 2 ^ 32 = hiLo at *
  generalize x / base / 2 ^ 32 = hiHi at *
  -- `2^64` is `2^32 - 1` and `2^96` is `-1`
  have hfold : (lo + base * (hiLo + 2 ^ 32 * hiHi)) % goldilocks =
      (lo + goldilocks - hiHi + hiLo * epsilon) % goldilocks := by
    have hsum : lo + base * (hiLo + 2 ^ 32 * hiHi) + goldilocks =
        lo + goldilocks - hiHi + hiLo * epsilon + goldilocks * (hiLo + (2 ^ 32 + 1) * hiHi) := by
      unfold base goldilocks epsilon
      omega
    rw [← Nat.add_mod_right, hsum, Nat.add_mul_mod_self_left]
  have hproduct : hiLo * epsilon % base = hiLo * epsilon := Nat.mod_eq_of_lt (by unfold base epsilon; omega)
  rw [hfold, hproduct]
  generalize ht : (if decide (lo < hiHi) = true then _ else _ : Nat) = t
  have hdiff : t < base ∧ (t + hiHi = lo ∨ t + hiHi = lo + goldilocks) := by
    rw [← ht]
    unfold base goldilocks epsilon at *
    by_cases hless : lo < hiHi
    · rw [if_pos (decide_eq_true hless)]
      omega
    · rw [if_neg (by simpa using hless)]
      omega
  have hsum : (lo + goldilocks - hiHi + hiLo * epsilon) % goldilocks = (t + hiLo * epsilon) % goldilocks := by
    obtain h | h := hdiff.2
    · rw [show lo + goldilocks - hiHi + hiLo * epsilon = t + hiLo * epsilon + goldilocks by omega, Nat.add_mod_right]
    · rw [show lo + goldilocks - hiHi + hiLo * epsilon = t + hiLo * epsilon by omega]
  rw [hsum]
  by_cases hcarry : base ≤ t + hiLo * epsilon
  · rw [if_pos (decide_eq_true hcarry)]
    have hfolded : ((t + hiLo * epsilon) % base + epsilon) % base + goldilocks = t + hiLo * epsilon := by
      unfold base goldilocks epsilon at *
      omega
    conv_rhs => rw [← hfolded, Nat.add_mod_right]
    exact canonicalWord_eq (Nat.mod_lt _ base_pos)
  · rw [if_neg (by simpa using hcarry), Nat.mod_eq_of_lt (not_le.mp hcarry)]
    exact canonicalWord_eq (not_le.mp hcarry)

theorem mul_eq (ha : a < goldilocks) (hb : b < goldilocks) : mul a b = a * b % goldilocks := by
  apply reduce128_eq
  calc a * b < goldilocks * goldilocks := Nat.mul_lt_mul'' ha hb
    _ < 2 ^ 128 := by decide

/-- The canonical word `a` stands for `x`. -/
def Word (a : Nat) (x : GF) : Prop := a < goldilocks ∧ (a : GF) = x

theorem word_cast (h : a < goldilocks) : Word a a := ⟨h, rfl⟩

theorem word_zero : Word 0 0 := ⟨by decide, Nat.cast_zero⟩

theorem word_one : Word 1 1 := ⟨by decide, Nat.cast_one⟩

theorem word_neg_one : Word (goldilocks - 1) (-1) := by
  refine ⟨by decide, ?_⟩
  rw [Nat.cast_sub (by decide), natCast_self, zero_sub, Nat.cast_one]

variable {x y : GF}

theorem word_mod (n : Nat) : Word (n % goldilocks) n := ⟨Nat.mod_lt _ (by decide), natCast_mod _ _⟩

section
variable (hx : Word a x)
include hx

theorem Word.congr (h : x = y) : Word a y := h ▸ hx

theorem Word.eq_iff (hy : Word b y) : x = y ↔ a = b := by
  rw [← hx.2, ← hy.2, natCast_eq_natCast_iff', Nat.mod_eq_of_lt hx.1, Nat.mod_eq_of_lt hy.1]

theorem Word.add (hy : Word b y) : Word (add a b) (x + y) := by
  rw [add_eq hx.1 hy.1, ← hx.2, ← hy.2, ← Nat.cast_add]
  exact word_mod _

theorem Word.sub (hy : Word b y) : Word (sub a b) (x - y) := by
  have hsub := sub_eq hx.1 hy.1
  refine ⟨?_, ?_⟩
  · have hless := Int.emod_lt_of_pos ((a : Int) - b) (by decide : (0 : Int) < goldilocks)
    omega
  · have hcast := congrArg (Int.cast : Int → GF) hsub
    rwa [intCast_mod, Int.cast_sub, Int.cast_natCast, Int.cast_natCast, Int.cast_natCast, hx.2, hy.2] at hcast

theorem Word.mul (hy : Word b y) : Word (mul a b) (x * y) := by
  rw [mul_eq hx.1 hy.1, ← hx.2, ← hy.2, ← Nat.cast_mul]
  exact word_mod _

theorem Word.square : Word (square a) (x ^ 2) := (hx.mul hx).congr (sq x).symm

theorem Word.expPowerOf2 (n : Nat) : Word (expPowerOf2 a n) (x ^ 2 ^ n) := by
  induction n generalizing a x with
  | zero => exact hx.congr (by simp)
  | succ n ih => exact (ih hx.square).congr (by rw [← pow_mul, ← pow_succ'])

end

theorem Word.expLoop {r rounds : Nat} (hy : Word r y) (hx : Word a x) (he : e < 2 ^ rounds) :
    Word (expLoop rounds r a e) (y * x ^ e) := by
  induction rounds generalizing r a e x y with
  | zero =>
    obtain rfl : e = 0 := by omega
    exact hy.congr (by simp)
  | succ rounds ih =>
    rw [Goldilocks.expLoop]
    split
    · next h => exact hy.congr (by simp [h])
    · have hpow : x ^ e = x ^ (e % 2) * (x ^ 2) ^ (e / 2) := by rw [← pow_mul, ← pow_add, Nat.mod_add_div]
      split
      · next hodd =>
        refine (ih (hy.mul hx) hx.square (by omega)).congr ?_
        rw [hpow, hodd, pow_one, mul_assoc]
      · next heven =>
        refine (ih hy hx.square (by omega)).congr ?_
        rw [hpow, Nat.mod_two_ne_one.mp heven, pow_zero, one_mul]

theorem Word.exp (hx : Word a x) (he : e < base) : Word (exp a e) (x ^ e) :=
  (word_one.expLoop hx he).congr (one_mul _)

theorem goldilocks_prime : Nat.Prime goldilocks := by
  have hseven : Word 7 (7 : Nat) := word_cast (by decide)
  apply lucas_primality goldilocks ((7 : Nat) : GF)
  · exact ((hseven.exp (by decide)).eq_iff word_one).mpr (by decide +kernel)
  · intro q hq hdvd
    have hfactors : goldilocks - 1 = 2 ^ 32 * (3 * (5 * (17 * (257 * 65537)))) := by decide
    have hcases : q = 2 ∨ q = 3 ∨ q = 5 ∨ q = 17 ∨ q = 257 ∨ q = 65537 := by
      rw [hfactors, hq.dvd_mul, hq.dvd_mul, hq.dvd_mul, hq.dvd_mul, hq.dvd_mul] at hdvd
      obtain h | h | h | h | h | h := hdvd
      · exact .inl ((Nat.prime_dvd_prime_iff_eq hq Nat.prime_two).mp (hq.dvd_of_dvd_pow h))
      all_goals have := (Nat.prime_dvd_prime_iff_eq hq (by norm_num)).mp h
      all_goals simp [this]
    have hpow : ∀ e < base, exp 7 e ≠ 1 → ((7 : Nat) : GF) ^ e ≠ 1 :=
      fun e he hne h => hne (((hseven.exp he).eq_iff word_one).mp h)
    obtain rfl | rfl | rfl | rfl | rfl | rfl := hcases
    all_goals exact hpow _ (by decide) (by decide +kernel)

instance : Fact (Nat.Prime goldilocks) := ⟨goldilocks_prime⟩

theorem Word.inverseOrZero (hx : Word a x) : Word (inverseOrZero a) x⁻¹ := by
  have hzero := hx.eq_iff word_zero
  unfold Goldilocks.inverseOrZero
  split
  · next h => exact word_zero.congr (by rw [hzero.mpr h, inv_zero])
  · next h =>
    refine (hx.exp (by decide)).congr (eq_inv_of_mul_eq_one_left ?_)
    rw [← pow_succ]
    exact pow_card_sub_one_eq_one (mt hzero.mp h)

theorem Word.isSquare_iff (hx : Word a x) (h0 : a ≠ 0) : IsSquare x ↔ x ^ ((goldilocks - 1) / 2) = 1 :=
  euler_criterion goldilocks (mt (hx.eq_iff word_zero).mp h0)

theorem Word.isQuadraticResidue (hx : Word a x) : isQuadraticResidue a = true ↔ IsSquare x := by
  unfold Goldilocks.isQuadraticResidue
  rw [Bool.or_eq_true, beq_iff_eq, beq_iff_eq]
  by_cases h0 : a = 0
  · simp [h0, (hx.eq_iff word_zero).mpr h0]
  · rw [hx.isSquare_iff h0, (hx.exp (by decide)).eq_iff word_one]
    simp [h0]

/-- The inner loop of `sqrt`: `k` squarings until `b` is one. -/
inductive SquaredUntil : Nat → Nat → Prop where
  | one : SquaredUntil 1 0
  | more {b k : Nat} : b ≠ 1 → SquaredUntil (square b) k → SquaredUntil b (k + 1)

/-- The outer loop of `sqrt` from `z`, `x`, `b` and `v`: it ends with a root, and `v - k - 1` never underflows. -/
inductive SqrtRun : Nat → Nat → Nat → Nat → Nat → Prop where
  | done {z x v : Nat} : SqrtRun z x 1 v x
  | round {z x b v k w root : Nat} : b ≠ 1 → SquaredUntil b k → k + 1 ≤ v → w = expPowerOf2 z (v - k - 1) →
      SqrtRun (square w) (mul x w) (mul b (square w)) k root → SqrtRun z x b v root

theorem squarings_spec (fuel : Nat) {n : Nat} (hx : Word a x) (hn : n ≤ fuel) (h : x ^ 2 ^ n = 1) :
    SquaredUntil a (squarings fuel a) ∧ TonelliShanks.Squarings x (squarings fuel a) := by
  have hone := hx.eq_iff word_one
  induction fuel generalizing a x n with
  | zero =>
    obtain rfl : n = 0 := by omega
    rw [pow_zero, pow_one] at h
    obtain rfl := hone.mp h
    exact ⟨.one, ⟨by simpa [squarings] using h, nofun⟩⟩
  | succ fuel ih =>
    rw [squarings]
    split
    · next h1 =>
      subst h1
      exact ⟨.one, ⟨by simpa using hone, nofun⟩⟩
    · next hne =>
      cases n with
      | zero =>
        rw [pow_zero, pow_one] at h
        exact absurd (hone.mp h) hne
      | succ n =>
        rw [pow_succ', pow_mul] at h
        obtain ⟨hrun, hk⟩ := ih hx.square (by omega) h (hx.square.eq_iff word_one)
        exact ⟨.more hne hrun, hk.succ (mt hone.mp hne)⟩

theorem sqrtLoop_spec {fuel z r v : Nat} {ζ ρ β : GF} (hz : Word z ζ) (hr : Word r ρ) (hb : Word b β)
    (h : TonelliShanks.Loop x ζ ρ β v) (hv : v ≤ fuel) (hfuel : fuel ≤ twoAdicity) :
    SqrtRun z r b v (sqrtLoop fuel z r b v) ∧ ∃ root, Word (sqrtLoop fuel z r b v) root ∧ root ^ 2 = x := by
  induction fuel generalizing z r b v ζ ρ β with
  | zero => exact absurd h.pos (by omega)
  | succ fuel ih =>
    have hone := hb.eq_iff word_one
    rw [sqrtLoop]
    split
    · next h1 =>
      subst h1
      exact ⟨.done, ρ, hr, by rw [h.square, hone.mpr rfl, mul_one]⟩
    · next hne =>
      obtain ⟨hrun, hk⟩ := squarings_spec twoAdicity (n := v - 1) hb (by omega) h.order
      have hlt := h.lt hk
      have hw := hz.expPowerOf2 (v - squarings twoAdicity b - 1)
      obtain ⟨hrest, hroot⟩ := ih hw.square (hr.mul hw) (hb.mul hw.square) (h.round hk (mt hone.mp hne)) (by omega)
        (by omega)
      exact ⟨.round hne hrun hlt rfl hrest, hroot⟩

/-- The power `sqrt` starts from. -/
def sqrtPower (a : Nat) : Nat := exp a (((goldilocks - 1) / 2 ^ twoAdicity - 1) / 2)

/-- The square root of a nonzero square, with the run of the loop that finds it. -/
theorem sqrt_of_isSquare (hx : Word a x) (h0 : a ≠ 0) (hsquare : IsSquare x) :
    ∃ r, SqrtRun powerOfTwoGenerator (mul a (sqrtPower a)) (mul (mul a (sqrtPower a)) (sqrtPower a)) twoAdicity r ∧
      sqrt a = some r ∧ ∃ root, Word r root ∧ root ^ 2 = x := by
  obtain ⟨w, hw, hpow⟩ : ∃ w, Word (sqrtPower a) w ∧ x * w * w = x ^ ((goldilocks - 1) / 2 ^ twoAdicity) := by
    refine ⟨_, hx.exp (by decide), ?_⟩
    rw [mul_assoc, ← pow_add, ← pow_succ']
    rfl
  have hg : Word powerOfTwoGenerator powerOfTwoGenerator := word_cast (by decide)
  have hloop : TonelliShanks.Loop x (powerOfTwoGenerator : GF) (x * w) (x * w * w) twoAdicity := by
    refine ⟨by decide, by ring, ?_, ((hg.expPowerOf2 (twoAdicity - 1)).eq_iff word_neg_one).mpr (by decide +kernel)⟩
    rw [hpow, ← pow_mul]
    exact (hx.isSquare_iff h0).mp hsquare
  obtain ⟨hrun, hroot⟩ := sqrtLoop_spec hg (hx.mul hw) ((hx.mul hw).mul hw) hloop (le_refl _) (le_refl _)
  refine ⟨_, hrun, ?_, hroot⟩
  rw [sqrt, if_neg h0, hx.isQuadraticResidue.mpr hsquare]
  simp only [Bool.not_true, Bool.false_eq_true, if_false, canonicalWord_of_lt hx.1]
  rfl

theorem Word.sqrt_eq_none (hx : Word a x) : sqrt a = none ↔ ¬ IsSquare x := by
  by_cases h0 : a = 0
  · simp [sqrt, h0, (hx.eq_iff word_zero).mpr h0]
  · by_cases hsquare : IsSquare x
    · obtain ⟨r, _, hr, _⟩ := sqrt_of_isSquare hx h0 hsquare
      simp [hr, hsquare]
    · rw [sqrt, if_neg h0, Bool.eq_false_iff.mpr (mt hx.isQuadraticResidue.mp hsquare)]
      simp [hsquare]

theorem Word.sqrt_eq_some {r : Nat} (hx : Word a x) (h : sqrt a = some r) : ∃ root, Word r root ∧ root ^ 2 = x := by
  by_cases h0 : a = 0
  · rw [sqrt, if_pos h0, Option.some.injEq] at h
    exact ⟨0, h ▸ word_zero, by rw [(hx.eq_iff word_zero).mpr h0, zero_pow two_ne_zero]⟩
  · have hsquare : IsSquare x := by
      by_contra hnot
      rw [hx.sqrt_eq_none.mpr hnot] at h
      cases h
    obtain ⟨r', _, hr, hroot⟩ := sqrt_of_isSquare hx h0 hsquare
    rw [hr, Option.some.injEq] at h
    exact h ▸ hroot

/-- **Goldilocks arithmetic.** On canonical words every operation, and on any 128 bits `reduce128`,
leaves the canonical representative of the exact result; the square root finds a root of every square
and of nothing else, its loops ending without underflow. -/
theorem goldilocks_arithmetic : Nat.Prime goldilocks ∧ (∀ a b, a < goldilocks → b < goldilocks →
      add a b = (a + b) % goldilocks ∧ (sub a b : Int) = ((a : Int) - b) % goldilocks ∧
      (neg a : Int) = -(a : Int) % goldilocks ∧ mul a b = a * b % goldilocks) ∧
    (∀ x < 2 ^ 128, reduce128 x = x % goldilocks) ∧
    (∀ a e, a < goldilocks → e < base → exp a e = a ^ e % goldilocks) ∧
    (∀ a, a ≠ 0 → a < goldilocks → inverseOrZero a < goldilocks ∧ a * inverseOrZero a % goldilocks = 1) ∧
    ∀ a < goldilocks, (∀ r, sqrt a = some r → r < goldilocks ∧ r * r % goldilocks = a) ∧
      (∀ r, r * r % goldilocks = a → ∃ root, sqrt a = some root ∧ (a ≠ 0 →
        SqrtRun powerOfTwoGenerator (mul a (sqrtPower a))
          (mul (mul a (sqrtPower a)) (sqrtPower a)) twoAdicity root)) := by
  refine ⟨goldilocks_prime, fun a b ha hb => ⟨add_eq ha hb, sub_eq ha hb, neg_eq ha, mul_eq ha hb⟩,
    fun x => reduce128_eq, ?_, ?_, ?_⟩
  · intro a e ha he
    exact (((word_cast ha).exp he).eq_iff (word_mod (a ^ e))).mp (Nat.cast_pow a e).symm
  · intro a h0 ha
    have hinverse := (word_cast ha).inverseOrZero
    refine ⟨hinverse.1, ((word_mod _).eq_iff word_one).mp ?_⟩
    rw [Nat.cast_mul, hinverse.2]
    exact mul_inv_cancel₀ (mt ((word_cast ha).eq_iff word_zero).mp h0)
  · intro a ha
    have hword := word_cast ha
    constructor
    · intro r hr
      obtain ⟨root, hroot, hsq⟩ := hword.sqrt_eq_some hr
      refine ⟨hroot.1, ((word_mod _).eq_iff hword).mp ?_⟩
      rw [Nat.cast_mul, hroot.2, ← sq, hsq]
    · intro r hr
      have hsquare : IsSquare (a : GF) := ⟨r, by rw [← hr, natCast_mod, Nat.cast_mul]⟩
      by_cases h0 : a = 0
      · exact ⟨0, by rw [sqrt, if_pos h0], fun h => absurd h0 h⟩
      · obtain ⟨root, hrun, hroot, _⟩ := sqrt_of_isSquare hword h0 hsquare
        exact ⟨root, hroot, fun _ => hrun⟩

end LiquidityMigration.Venue.Lighter.Goldilocks
