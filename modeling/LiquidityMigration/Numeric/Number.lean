import LiquidityMigration.Numeric.Exact

/- Numbers with the form they came in: a decimal of the venue, a binary64 kept by
   an older log, or a value derived from others. A binary64 is read as the exact
   value it stands for; the values that are not finite stand for none. -/
namespace LiquidityMigration.Numeric

/-- A binary64: its exact value where it is finite. -/
inductive F64 where
  | finite (value : ℚ)
  | nonFinite
  deriving DecidableEq

def fromLegacyF64 : F64 → Except ExactError Exact
  | .finite value => .ok value
  | .nonFinite => .error .nonFinite

/-- What is left of `n` without its factors `p`. -/
def strip (p : Nat) : Nat → Nat → Nat
  | 0, n => n
  | fuel + 1, n => if n % p = 0 then strip p fuel (n / p) else n

/-- Whether `Exact::to_decimal_string` gives a text: the decimal does not repeat. -/
def isDecimal (x : Exact) : Bool := strip 5 x.den.size (strip 2 x.den.size x.den) = 1

inductive NumericProvenance where
  | venueDecimal
  | legacyBinary64 (value : F64)
  | derived
  deriving DecidableEq

structure ExactNumber where
  value : Exact
  provenance : NumericProvenance
  deriving DecidableEq

namespace ExactNumber

def provenanceHolds (n : ExactNumber) : Bool :=
  match n.provenance with
  | .venueDecimal => isDecimal n.value
  | .legacyBinary64 value => fromLegacyF64 value = .ok n.value
  | .derived => true

def validateProvenance (n : ExactNumber) : Except ExactError Unit :=
  if n.provenanceHolds then .ok () else .error .invalidProvenance

/-- `ExactNumber::legacy_binary64`. -/
def ofLegacy (value : F64) : Except ExactError ExactNumber :=
  (fromLegacyF64 value).map fun x => ⟨x, .legacyBinary64 value⟩

/-- `ExactNumber::derived`. -/
def ofDerived (value : Exact) : ExactNumber := ⟨value, .derived⟩

@[simp] theorem validateProvenance_derived (x : Exact) : (ofDerived x).validateProvenance = .ok () := rfl

end ExactNumber

structure AssetAmount where
  asset : AssetId
  amount : ExactNumber
  deriving DecidableEq

structure ExecutionAmounts where
  settlementAsset : AssetId
  (quantity price : ExactNumber)
  fee : Option AssetAmount
  deriving DecidableEq

def floorTo (x step : Exact) : Except ExactError Exact :=
  if 0 < step then .ok (⌊x / step⌋ * step) else .error .invalidStep

def ceilTo (x step : Exact) : Except ExactError Exact :=
  if 0 < step then .ok (⌈x / step⌉ * step) else .error .invalidStep

/-- The distance from a binary64 of that absolute value to the next one up, or to
the one before where there is none. -/
def ulp (value : ℚ) : Exact := if value = 0 then 2 ^ (-1074 : ℤ) else 2 ^ max (Int.log 2 value - 52) (-1074)

end LiquidityMigration.Numeric
