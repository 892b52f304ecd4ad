import LiquidityMigration.Lib.Checks
import LiquidityMigration.Numeric.Number

/- The boundary between exact values and binary64. Where a record carries both, the exact value counts and the
   binary64 has to agree; alone, a binary64 is read as the exact value it stands for (`fromLegacyF64`) or as the
   decimal it is printed as (`Binary64.ofText`). Rounding and printing come in as a `Binary64`; the printer is used
   to print a positive number as a positive decimal. -/
namespace LiquidityMigration.Numeric
open Checks

structure Binary64 where
  /-- The nearest binary64, where that is finite. -/
  nearest : Exact → Option ℚ
  /-- The decimal that `to_string` prints for a finite binary64. -/
  shown : ℚ → Exact
  shown_pos : ∀ v, 0 < v → 0 < shown v

namespace Binary64

/-- A binary64 with nothing to round: its numbers are all the rationals. -/
def unrounded : Binary64 := ⟨some, id, fun _ h => h⟩

variable (b : Binary64)

/-- `Exact::parse_decimal(&value.to_string())`. -/
def ofText : F64 → Except ExactError Exact
  | .finite value => .ok (b.shown value)
  | .nonFinite => .error .invalidDecimal

/-- `Exact::to_f64(..)? != projection`, as the check it is used for. -/
def projectsTo (x : Exact) (projection : F64) : Except ExactError Unit := do
  let value ← toF64 b.nearest x
  require (F64.finite value = projection) .invalidProjection

/-- An exact value checked against its projection, or the decimal of the projection alone. -/
def exactOrText (exact : Option Exact) (projection : F64) : Except ExactError Exact :=
  match exact with
  | some x => do
    validateStorage x
    b.projectsTo x projection
    .ok x
  | none => b.ofText projection

def maxFinite : ℚ := (2 - 1 / 2 ^ 52) * 2 ^ 1023

/-- `Exact::reporting_f64`: a value for a message, saturated where it has no binary64. -/
def report (x : Exact) : ℚ :=
  match toF64 b.nearest x with
  | .ok value => value
  | .error _ => if |x| < 1 then 0 else if x < 0 then -maxFinite else maxFinite

/-- A configured number, read as the decimal the operator wrote. -/
def policy (value : ℚ) : Exact := b.shown value

theorem policy_pos {value : ℚ} (h : 0 < value) : 0 < b.policy value := b.shown_pos value h

/-- The exact number where there is one, checked against its projection. -/
def canonical (number : Option ExactNumber) (projection : F64) : Except ExactError Exact :=
  match number with
  | some number => do
    number.validateProvenance
    validateStorage number.value
    b.projectsTo number.value projection
    .ok number.value
  | none => fromLegacyF64 projection

end Binary64

end LiquidityMigration.Numeric
