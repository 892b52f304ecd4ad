import LiquidityMigration.Lib.Text
import LiquidityMigration.Numeric.Binary64

/- Exact values as the venue reads them: plain decimals, printed digit by digit. A
   value is printable when its denominator has no factors but two and five
   (`toDecimalString_isSome`). The place of a price's first digit is read off its
   text, as the step of a venue that counts significant figures needs it. -/
namespace LiquidityMigration.Orders
open Numeric Checks

/-- How often `p` divides `n`, and what is left of `n` then. -/
def factors (p : Nat) : Nat → Nat → Nat × Nat
  | 0, n => (0, n)
  | fuel + 1, n =>
    if n % p = 0 then
      let (count, rest) := factors p fuel (n / p)
      (count + 1, rest)
    else (0, n)

theorem factors_rest (p fuel n : Nat) : (factors p fuel n).2 = strip p fuel n := by
  induction fuel generalizing n with
  | zero => rfl
  | succ fuel ih =>
    rw [factors, strip]
    split
    · exact ih (n / p)
    · rfl

/-- `numerator / 10 ^ scale`, digit by digit. -/
def scaledText (numerator : Int) (scale : Nat) : List Char :=
  let sign := if numerator < 0 then ['-'] else []
  let digits := Nat.toDigits 10 numerator.natAbs
  if scale = 0 then sign ++ digits
  else if digits.length ≤ scale then sign ++ ['0', '.'] ++ List.replicate (scale - digits.length) '0' ++ digits
  else sign ++ digits.take (digits.length - scale) ++ '.' :: digits.drop (digits.length - scale)

/-- `Exact::to_decimal_string`; a repeating decimal has none. -/
def toDecimalString (x : Exact) : Option (List Char) :=
  let twos := factors 2 x.den.size x.den
  let fives := factors 5 x.den.size twos.2
  let scale := max twos.1 fives.1
  if fives.2 ≠ 1 then none
  else some (scaledText (x.num * 2 ^ (scale - twos.1) * 5 ^ (scale - fives.1)) scale)

theorem toDecimalString_isSome (x : Exact) : (toDecimalString x).isSome = isDecimal x := by
  unfold toDecimalString isDecimal
  dsimp only
  rw [factors_rest, factors_rest]
  split
  · next h => exact (decide_eq_false h).symm
  · next h => exact (decide_eq_true (not_not.mp h)).symm

example : toDecimalString (-1 / 8) = some "-0.125".toList := by decide +kernel

example : toDecimalString (25 / 2) = some "12.5".toList := by decide +kernel

inductive OrderLegalityError where
  | number (error : ExactError)
  | unavailable (what : String)
  | constraint (what : String)
  | projection
  deriving DecidableEq

def numeric {α : Type} (x : Except ExactError α) : Except OrderLegalityError α := x.mapError .number

def strategyDecimal (b : Binary64) (value : F64) : Except OrderLegalityError Exact :=
  match value with
  | .nonFinite => .error (.constraint "positive finite input")
  | .finite v => do
    require (0 < v) (.constraint "positive finite input")
    numeric (b.ofText value)

def decimalWire (value : Exact) : Except OrderLegalityError (List Char) := do
  numeric (validateStorage value)
  require (0 < value) (.constraint "positive wire amount")
  orError (toDecimalString value) (.constraint "finite decimal wire amount")

def requiredPositive (value : Option Exact) (field : String) : Except OrderLegalityError Exact := do
  let value ← orError value (.unavailable field)
  let _ ← decimalWire value
  .ok value

/-- The power of ten of the first digit of a text. -/
def magnitudeOf (text : List Char) : Except OrderLegalityError Int :=
  let parts := (Text.splitOnce '.' text).getD (text, [])
  if parts.1 ≠ ['0'] then .ok ((parts.1.length : Int) - 1)
  else do
    let zeros ← orError (parts.2.findIdx? (fun c => c ≠ '0')) (.constraint "positive price")
    .ok (-(zeros : Int) - 1)

def magnitude (value : Exact) : Except OrderLegalityError Int := do
  let text ← decimalWire value
  magnitudeOf text

example : magnitude (1234 / 100) = .ok 1 := by decide +kernel

example : magnitude (12 / 1000) = .ok (-2) := by decide +kernel

end LiquidityMigration.Orders
