import LiquidityMigration.Venue.Lighter.Schnorr

/- The curve Lighter signs on, as the code computes it: the Goldilocks field `p = 2^64 - 2^32 + 1`, its quintic
   extension `Fp[X]/(X^5 - 3)`, and points in fractional coordinates `(x, u) = (X/Z, U/T)`. That the points are a
   group of the scalars' order is what `Curve.Group` assumes. A word is a `u64`, cut to 64 bits where the source's
   arithmetic wraps. -/
namespace LiquidityMigration.Venue.Lighter

namespace Goldilocks

/-- `2^32 - 1`, which `2^64` is congruent to. -/
def epsilon : Nat := 0xFFFFFFFF

def twoAdicity : Nat := 32

def powerOfTwoGenerator : Nat := 7277203076849721926

def overflowingSub (a b : Nat) : Nat × Bool := ((a + base - b) % base, decide (a < b))

def overflowingAdd (a b : Nat) : Nat × Bool := ((a + b) % base, decide (base ≤ a + b))

def add (a b : Nat) : Nat :=
  let (sum, carried) := overflowingAdd a b
  let (reduced, borrowed) := overflowingSub sum goldilocks
  if carried || !borrowed then reduced else sum

def sub (a b : Nat) : Nat :=
  let (diff, borrowed) := overflowingSub a b
  if borrowed then (diff + goldilocks) % base else diff

/-- `reduce128`: `2^64` is `2^32 - 1` and `2^96` is `-1` in the field. -/
def reduce128 (x : Nat) : Nat :=
  let lo := x % base
  let hi := x / base
  let hiHi := hi / 2 ^ 32
  let hiLo := hi % 2 ^ 32
  let (diff, borrowed) := overflowingSub lo hiHi
  let t₀ := if borrowed then (overflowingSub diff epsilon).1 else diff
  let t₁ := hiLo * epsilon % base
  let (sum, carried) := overflowingAdd t₀ t₁
  let folded := if carried then (sum + epsilon) % base else sum
  canonicalWord folded

def mul (a b : Nat) : Nat := reduce128 (a * b)

def square (a : Nat) : Nat := mul a a

def expPowerOf2 (x : Nat) : Nat → Nat
  | 0 => x
  | n + 1 => expPowerOf2 (square x) n

/-- The bits of `exp`'s exponent, one a round; a `u64` has sixty-four. -/
def expLoop : Nat → Nat → Nat → Nat → Nat
  | 0, result, _, _ => result
  | rounds + 1, result, acc, e =>
    if e = 0 then result
    else expLoop rounds (if e % 2 = 1 then mul result acc else result) (square acc) (e / 2)

def exp (x exponent : Nat) : Nat := expLoop 64 1 x exponent

def inverseOrZero (a : Nat) : Nat := if a = 0 then 0 else exp a (goldilocks - 2)

def isQuadraticResidue (x : Nat) : Bool := x == 0 || exp x ((goldilocks - 1) / 2) == 1

/-- How often `b` is squared until it is one. -/
def squarings : Nat → Nat → Nat
  | 0, _ => 0
  | fuel + 1, b => if b = 1 then 0 else squarings fuel (square b) + 1

/-- The rounds of Tonelli-Shanks; the order of `b` falls in each, so there are at most
as many as the two-adicity. -/
def sqrtLoop : Nat → Nat → Nat → Nat → Nat → Nat
  | 0, _, x, _, _ => x
  | fuel + 1, z, x, b, v =>
    if b = 1 then x
    else
      let k := squarings twoAdicity b
      let w := expPowerOf2 z (v - k - 1)
      sqrtLoop fuel (square w) (mul x w) (mul b (square w)) k

def sqrt (value : Nat) : Option Nat :=
  if value = 0 then some 0
  else if !isQuadraticResidue value then none
  else
    let value := canonicalWord value
    let t := (goldilocks - 1) / 2 ^ twoAdicity
    let w := exp value ((t - 1) / 2)
    let x := mul value w
    some (sqrtLoop twoAdicity powerOfTwoGenerator x (mul x w) twoAdicity)

end Goldilocks

namespace Gfp5
open Goldilocks

variable (a : Element) (b : Element)

def coeff (i : Nat) : Nat := a.limbs.getD i 0

def ofCoeffs (f : Nat → Nat) : Element where
  limbs := (List.range 5).map fun i => f i % base
  length_eq := by simp
  small := by
    intro limb hlimb
    obtain ⟨i, -, rfl⟩ := List.mem_map.mp hlimb
    exact Nat.mod_lt _ base_pos

def fromBase (x : Nat) : Element := ofCoeffs fun i => if i = 0 then canonicalWord x else 0

def zero : Element := fromBase 0

def one : Element := fromBase 1

def two : Element := fromBase 2

def w : Nat := 3

def dthRoot : Nat := 1041288259238279555

def isZero : Bool := a.limbs.all fun limb => canonicalWord limb == 0

def add : Element := ofCoeffs fun i => Goldilocks.add (coeff a i) (coeff b i)

def sub : Element := ofCoeffs fun i => Goldilocks.sub (coeff a i) (coeff b i)

def neg : Element := sub zero a

def double : Element := add a a

def scalarMul (scalar : Nat) : Element := ofCoeffs fun i => Goldilocks.mul (coeff a i) scalar

/-- One product of the schoolbook, folded where its degree runs over. -/
def mulTerm (k acc i : Nat) : Nat :=
  let j := (k + 5 - i) % 5
  let product := Goldilocks.mul (coeff a i) (coeff b j)
  if 5 ≤ i + j then Goldilocks.add acc (Goldilocks.mul w product) else Goldilocks.add acc product

def mul : Element := ofCoeffs fun k => (List.range 5).foldl (mulTerm a b k) 0

def square : Element := mul a a

def expPowerOf2 (x : Element) : Nat → Element
  | 0 => x
  | power + 1 => expPowerOf2 (square x) power

/-- `repeated_frobenius`; five times is none. -/
def repeatedFrobenius (x : Element) (count : Nat) : Element :=
  if count % 5 = 0 then x
  else
    let z₀ := (List.range (count % 5 - 1)).foldl (fun z _ => Goldilocks.mul dthRoot z) dthRoot
    ofCoeffs fun i => Goldilocks.mul (coeff x i) ((List.range i).foldl (fun z _ => Goldilocks.mul z z₀) 1)

def frobenius (x : Element) : Element := repeatedFrobenius x 1

def lowest (g : Element) : Nat :=
  Goldilocks.add (Goldilocks.mul (coeff a 0) (coeff g 0))
    (Goldilocks.mul w
      (Goldilocks.add
        (Goldilocks.add (Goldilocks.mul (coeff a 1) (coeff g 4)) (Goldilocks.mul (coeff a 2) (coeff g 3)))
        (Goldilocks.add (Goldilocks.mul (coeff a 3) (coeff g 2)) (Goldilocks.mul (coeff a 4) (coeff g 1)))))

/-- `inverse_or_zero`, through the norm. -/
def inverseOrZero : Element :=
  if isZero a then zero
  else
    let d := frobenius a
    let e := mul d (frobenius d)
    let g := mul e (repeatedFrobenius e 2)
    scalarMul g (Goldilocks.inverseOrZero (lowest a g))

def div : Element := mul a (inverseOrZero b)

def legendre (x : Element) : Nat :=
  let frob₁ := frobenius x
  let frob₂ := frobenius frob₁
  let product := mul frob₁ frob₂
  let xr := coeff (mul (mul x product) (repeatedFrobenius product 2)) 0
  let xr31 := Goldilocks.expPowerOf2 xr 31
  Goldilocks.mul (Goldilocks.expPowerOf2 xr31 32) (Goldilocks.inverseOrZero xr31)

def sqrt (x : Element) : Option Element := do
  let v := expPowerOf2 x 31
  let d := mul (mul x (expPowerOf2 v 32)) (inverseOrZero v)
  let e := frobenius (mul d (repeatedFrobenius d 2))
  let s ← Goldilocks.sqrt (lowest x (square e))
  some (mul (fromBase s) (inverseOrZero e))

/-- The sign as the code folds it: whether the root is the negative one. -/
def sgn0 (x : Element) : Bool :=
  (x.limbs.foldl (fun (acc : Bool × Bool) limb =>
    (acc.1 || (acc.2 && canonicalWord limb % 2 == 0), acc.2 && canonicalWord limb == 0)) (false, true)).1

def canonicalSqrt (x : Element) : Option Element := do
  let root ← sqrt x
  if sgn0 root then some (neg root) else some root

end Gfp5

namespace Ecgfp5
open Gfp5

/-- The curve is `y^2 = x(x^2 + a x + b)`. -/
def a : Element := fromBase 2

def b₁ : Nat := 263

def bMul (k : Nat) : Element := ofCoeffs fun i => if i = 1 then k * b₁ else 0

structure Point where
  (x z u t : Element)

def neutral : Point := ⟨zero, one, zero, one⟩

def generator : Point where
  x :=
    ⟨[12883135586176881569, 4356519642755055268, 5248930565894896907, 2165973894480315022, 2448410071095648785], rfl,
      by decide⟩
  z := one
  u := one
  t := fromBase 4

def Point.encode (p : Point) : Element := mul p.t (inverseOrZero p.u)

def Point.add (p q : Point) : Point :=
  let t₁ := mul p.x q.x
  let t₂ := mul p.z q.z
  let t₃ := mul p.u q.u
  let t₄ := mul p.t q.t
  let t₅ := sub (mul (Gfp5.add p.x p.z) (Gfp5.add q.x q.z)) (Gfp5.add t₁ t₂)
  let t₆ := sub (mul (Gfp5.add p.u p.t) (Gfp5.add q.u q.t)) (Gfp5.add t₃ t₄)
  let t₇ := Gfp5.add t₁ (mul t₂ (bMul 1))
  let t₈ := mul t₄ t₇
  let t₉ := mul t₃ (Gfp5.add (mul t₅ (bMul 2)) (Gfp5.double t₇))
  let t₁₀ := mul (Gfp5.add t₄ (Gfp5.double t₃)) (Gfp5.add t₅ t₇)
  { x := mul (sub t₁₀ t₈) (bMul 1)
    z := sub t₈ t₉
    u := mul t₆ (sub (mul t₂ (bMul 1)) t₁)
    t := Gfp5.add t₈ t₉ }

def Point.double (p : Point) : Point :=
  let t₁ := mul p.z p.t
  let t₂ := mul t₁ p.t
  let x₁ := square t₂
  let z₁ := mul t₁ p.u
  let t₃ := square p.u
  let w₁ := sub t₂ (mul t₃ (Gfp5.double (Gfp5.add p.x p.z)))
  let t₄ := square z₁
  let zNew := square w₁
  { x := mul t₄ (bMul 4)
    z := zNew
    u := sub (square (Gfp5.add w₁ z₁)) (Gfp5.add t₄ zNew)
    t := sub (Gfp5.double x₁) (Gfp5.add (mul t₄ (fromBase 4)) zNew) }

/-- The point of a root, or the neutral element where there is none. -/
def pointOf (w : Element) : Option Element → Point
  | none => ⟨zero, one, zero, one⟩
  | some r =>
    let e := sub (square w) a
    let x₁ := div (Gfp5.add e r) two
    let x₂ := div (sub e r) two
    ⟨if legendre x₁ = 1 then x₂ else x₁, one, one, w⟩

/-- Of the two roots of `x^2 - (w^2 - a) x + b` the one that is not a square;
zero is the neutral element's encoding and has none. -/
def decode (w : Element) : Option Point :=
  let e := sub (square w) a
  let root := canonicalSqrt (sub (square e) (bMul 4))
  if root.isSome || isZero w then some (pointOf w root) else none

end Ecgfp5

end LiquidityMigration.Venue.Lighter
