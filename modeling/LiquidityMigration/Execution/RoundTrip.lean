import LiquidityMigration.Numeric.Binary64
import LiquidityMigration.Portfolio.Allocation

/- What a position made, from the fill that opened it to the fill that closed it. A sleeve's open position in a
   symbol is a `Lot`; its cash is the gross result once the quantity is back at zero. A fill through zero is folded
   in two parts (`Lot.take`). A fill of an older log carries binary64 readings alone, and what it leaves within
   rounding of zero counts as closed (`legacyFlat`). The binary64 weights that only feed the report are left out. -/
namespace LiquidityMigration.Execution
open Numeric Checks Portfolio

variable (b : Binary64)

/-- A sleeve and a symbol. -/
abbrev LotKey := String × String

structure Fill where
  amounts : Option ExecutionAmounts
  side : Side
  (qty px : F64)
  fee : Option F64
  venueTsMs : Int
  deriving DecidableEq

/-- What an allocation charges a sleeve with: its quantity, the value of that and its fee. -/
structure AllocationEconomics where
  (quantity consideration : Exact)
  fee : Option Exact
  deriving DecidableEq

def isUsdt (asset : AssetId) : Bool := asset = .named "USDT"

def validateProjection (amounts : ExecutionAmounts) (qty px : F64) (fee : Option F64) : Except ExactError Unit := do
  amounts.quantity.validateProvenance
  amounts.price.validateProvenance
  require (0 < amounts.quantity.value ∧ 0 < amounts.price.value) .invalidProjection
  b.projectsTo amounts.quantity.value qty
  b.projectsTo amounts.price.value px
  match amounts.fee, fee with
  | some exact, some fee => do
    exact.amount.validateProvenance
    b.projectsTo exact.amount.value fee
  | some exact, none => exact.amount.validateProvenance
  | none, fee => require (fee = none) .invalidProjection

variable (fill : Fill)

namespace Fill

def signed (quantity : Exact) : Exact :=
  match fill.side with
  | .buy => quantity
  | .sell => -quantity

def price (fill : Fill) : Except String Exact :=
  match fill.amounts with
  | some amounts => .ok amounts.price.value
  | none => (fromLegacyF64 fill.px).mapError ExactError.toString

def value (economics : Option AllocationEconomics) (quantity : Exact) : Except String Exact := do
  let price ← fill.price
  match economics with
  | some economics => do
    let share ← (checkedDiv quantity economics.quantity).mapError ExactError.toString
    .ok (economics.consideration * share)
  | none => .ok (price * quantity)

def feeStated (fee : AssetAmount) : Bool := fee.amount.value = 0 ∨ isUsdt fee.asset

/-- The fee of the whole fill, where it has a value in USDT, and the quantity it is for. -/
def feeTerms (economics : Option AllocationEconomics) : Except String (Option Exact × Exact) :=
  match economics, fill.amounts with
  | some economics, some amounts =>
    .ok (if amounts.fee.any feeStated then economics.fee else none, economics.quantity)
  | some economics, none => .ok (economics.fee, economics.quantity)
  | none, some amounts =>
    .ok ((amounts.fee.filter feeStated).map (fun fee => fee.amount.value), amounts.quantity.value)
  | none, none => do
    -- a fee that is not finite is one the venue did not state
    let fee := match fill.fee with
      | some (.finite fee) => some fee
      | _ => none
    let quantity ← (fromLegacyF64 fill.qty).mapError ExactError.toString
    .ok (fee, quantity)

def settlesUsdt : Bool := fill.amounts.all fun amounts => isUsdt amounts.settlementAsset

end Fill

/-- `quantity / whole` of `fee` on top of the fees so far; unknown as soon as one is. -/
def addFee (fees fee : Option Exact) (quantity whole : Exact) : Except String (Option Exact) :=
  match fees, fee with
  | some total, some fee => do
    let share ← (checkedDiv quantity whole).mapError ExactError.toString
    .ok (some (total + fee * share))
  | _, _ => .ok none

structure Lot where
  signedQty : Exact := 0
  exactQuantity : Bool := false
  /-- `1` while held long, `-1` short: the quantity is zero by the time the trip closes,
  so the side it was held on has to be remembered. -/
  held : Int := 0
  cash : Exact := 0
  inQty : Exact := 0
  inValue : Exact := 0
  outQty : Exact := 0
  outValue : Exact := 0
  fees : Option Exact := some 0
  usdt : Bool := true
  fills : Nat := 0
  openedMs : Int := 0
  /-- False where a checkpoint of an older log lacks the position's entry cost. -/
  priced : Bool := false
  deriving DecidableEq

inductive UnpricedTradeReason where
  | settlementAsset | feeValue
  deriving DecidableEq

/-- The money, present only when both legs of the trip are in the log. -/
structure RoundTrip where
  (entryPx entryNotionalUsdt grossUsdt feesUsdt netUsdt : ℚ)
  netUsdtExact : Exact
  netBps : ℚ
  (openedMs heldMs : Int)
  deriving DecidableEq

/-- A position a sleeve is now out of, and what it came to. -/
structure ClosedTrade where
  unpriced : Option UnpricedTradeReason
  internalSettlement : Option Nat
  (sleeve symbol side : String)
  (qty exitPx : ℚ)
  closedMs : Int
  fills : Nat
  (grossUsdt feesUsdt : Option ℚ)
  roundTrip : Option RoundTrip
  deriving DecidableEq

namespace Lot

variable (lot : Lot)

/-- The first part of a trip says on which side it is held and since when. -/
def opened (fill : Fill) (signed : Exact) : Lot :=
  if lot.signedQty = 0 then
    { lot with held := if signed < 0 then -1 else 1, openedMs := fill.venueTsMs, priced := true }
  else lot

/-- A part on the side the lot is held on goes in, one on the other side comes out. -/
def entered (quantity signed value : Exact) : Lot :=
  if decide (signed < 0) = decide (lot.held < 0) then
    { lot with inQty := lot.inQty + quantity, inValue := lot.inValue + value }
  else { lot with outQty := lot.outQty + quantity, outValue := lot.outValue + value }

/-- Fold in `quantity` of a fill, all of it or the part that belongs to this lot. -/
def fold (fill : Fill) (quantity : Exact) (exact : Bool) (economics : Option AllocationEconomics) :
    Except String Lot := do
  let signed := fill.signed quantity
  let value ← fill.value economics quantity
  let lot := (lot.opened fill signed).entered quantity signed value
  let (fee, whole) ← fill.feeTerms economics
  let fees ← addFee lot.fees fee quantity whole
  .ok { lot with
    exactQuantity := lot.exactQuantity || exact
    signedQty := lot.signedQty + signed
    cash := lot.cash + if 0 < signed then -value else value
    fills := lot.fills + 1
    usdt := lot.usdt && fill.settlesUsdt
    fees := fees }

def flat : Bool := lot.signedQty = 0

def ratio (x y : Exact) : Except String ℚ :=
  ((checkedDiv x y).map b.report).mapError ExactError.toString

def basisKnown : Bool := lot.priced ∧ 0 < lot.inQty ∧ 0 < lot.inValue

/-- Why the trip has no value in USDT, where that is for its asset or a fee. -/
def unpriced : Option UnpricedTradeReason :=
  if lot.basisKnown && lot.exactQuantity then
    if !lot.usdt then some .settlementAsset else if lot.fees.isNone then some .feeValue else none
  else none

/-- The money of the trip, where its basis and its fees are known in USDT. -/
def roundTrip (closedMs : Int) : Except String (Option RoundTrip) :=
  match lot.fees.filter (fun _ => lot.basisKnown && lot.usdt) with
  | some fees => do
    let net := lot.cash - fees
    let entryPx ← ratio b lot.inValue lot.inQty
    let netBps ← ratio b (net * 10000) lot.inValue
    .ok (some {
      entryPx := entryPx
      entryNotionalUsdt := b.report lot.inValue
      grossUsdt := b.report lot.cash
      feesUsdt := b.report fees
      netUsdt := b.report net
      netUsdtExact := net
      netBps := netBps
      openedMs := lot.openedMs
      heldMs := closedMs - lot.openedMs })
  | none => .ok none

def closed (sleeve symbol : String) (closedMs : Int) : Except String ClosedTrade := do
  let trip ← lot.roundTrip b closedMs
  let exitPx ← ratio b lot.outValue lot.outQty
  .ok {
    unpriced := lot.unpriced
    internalSettlement := none
    sleeve := sleeve
    symbol := symbol
    side := if lot.held < 0 then "short" else "long"
    qty := b.report lot.outQty
    exitPx := exitPx
    closedMs := closedMs
    fills := lot.fills
    grossUsdt := if lot.basisKnown && lot.usdt then some (b.report lot.cash) else none
    feesUsdt := (lot.fees.filter (fun _ => lot.basisKnown && lot.usdt)).map b.report
    roundTrip := trip }

/-- `LEGACY_FLAT`: the binary64 nearest to `1e-9`. -/
def legacyFlat : ℚ := 4835703278458517 / 4835703278458516698824704

/-- A fill without exact amounts leaves a quantity within rounding of zero. -/
def legacyFlatAfter (fill : Fill) (quantity : Exact) : Bool :=
  fill.amounts.isNone &&
    match toF64 b.nearest (lot.signedQty + fill.signed quantity) with
    | .ok qty => |qty| < legacyFlat
    | .error _ => false

def closing (fill : Fill) (quantity : Exact) : Exact :=
  if lot.signedQty ≠ 0 ∧ decide (lot.signedQty < 0) ≠ decide (fill.side = .sell) then min quantity |lot.signedQty|
  else 0

def takeClosing (key : LotKey) (fill : Fill) (quantity : Exact) (exact : Bool)
    (economics : Option AllocationEconomics) : Except String (Lot × Option ClosedTrade) :=
  if 0 < lot.closing fill quantity then do
    let folded ← lot.fold fill (lot.closing fill quantity) exact economics
    if folded.flat || lot.legacyFlatAfter b fill quantity then do
      let trade ← folded.closed b key.1 key.2 fill.venueTsMs
      .ok ({}, some trade)
    else .ok (folded, none)
  else .ok (lot, none)

def take (key : LotKey) (fill : Fill) (quantity : Exact) (exact : Bool)
    (economics : Option AllocationEconomics) : Except String (Lot × Option ClosedTrade) := do
  let opening := quantity - lot.closing fill quantity
  let (next, trade) ← lot.takeClosing b key fill quantity exact economics
  if 0 < opening ∧ ¬ lot.legacyFlatAfter b fill quantity then do
    let next ← next.fold fill opening exact economics
    .ok (next, trade)
  else .ok (next, trade)

end Lot

structure Lots where
  opens : AList (fun _ : LotKey => Lot) := ∅
  closed : List ClosedTrade := []

def disagrees : String := "analytic exact quantity disagrees with fill projection"

def checkQuantity (quantity : Exact) : Except String Unit := do
  require (0 < quantity) disagrees
  let projected ← (toF64 b.nearest quantity).mapError ExactError.toString
  require (F64.finite projected = fill.qty) disagrees

/-- The amounts a fill carries are those of the fill, and of the caller's quantity. -/
def checkAmounts (exactQty : Option Exact) : Except String Unit :=
  match fill.amounts with
  | some amounts => do
    (validateProjection b amounts fill.qty fill.px fill.fee).mapError ExactError.toString
    require (exactQty.all (fun qty => qty = amounts.quantity.value))
      "analytic quantity conflicts with execution amounts"
  | none => .ok ()

def exactQuantity (exactQty : Option Exact) : Option Exact :=
  (fill.amounts.map (fun amounts => amounts.quantity.value)).or exactQty

def positive : F64 → Bool
  | .finite value => 0 < value
  | .nonFinite => false

namespace Lots

/-- The lot of a sleeve in a symbol; a new one where nothing is open. -/
def lot (lots : Lots) (key : LotKey) : Lot := (lots.opens.lookup key).getD {}

/-- What `on_fill_with_economics` does with a fill it has checked. -/
def settle (lots : Lots) (key : LotKey) (fill : Fill) (exactQty : Option Exact)
    (economics : Option AllocationEconomics) : Except String Lots := do
  let quantity ← match exactQty with
    | some quantity => .ok quantity
    | none => (fromLegacyF64 fill.qty).mapError ExactError.toString
  checkQuantity b fill quantity
  let exact := exactQty.isSome || (lots.lot key).exactQuantity
  let (next, trade) ← (lots.lot key).take b key fill quantity exact economics
  .ok {
    opens := if next.signedQty = 0 then lots.opens.erase key else lots.opens.insert key next
    closed := lots.closed ++ trade.toList }

def onFillWithEconomics (lots : Lots) (sleeve symbol : String) (fill : Fill) (exactQty : Option Exact)
    (economics : Option AllocationEconomics) : Except String Lots := do
  checkAmounts b fill exactQty
  let exact := exactQuantity fill exactQty
  match exact with
  | some quantity => checkQuantity b fill quantity
  | none => .ok ()
  -- a fill of no finite positive quantity and price leaves the lots alone
  if positive fill.qty && positive fill.px then lots.settle b (sleeve, symbol) fill exact economics else .ok lots

end Lots

def sliceProjection : Option F64 → Option AssetAmount → Except String (Option F64)
  | some _, some fee =>
    ((toF64 b.nearest fee.amount.value).map (fun v => some (F64.finite v))).mapError ExactError.toString
  | _, _ => .ok none

/-- The slice of an allocated fill that is the owner's, as a fill of its own. -/
def allocatedFill (owner : StrategyId) (fill : Fill) (allocation : ExecutionAllocation) :
    Except String (Fill × AllocationEconomics) := do
  let slice ← orError (allocation.slices.find? (fun slice => slice.strategy = owner))
    "allocated analytic fill has no owner"
  let quantity ← fillQuantity b.nearest fill.qty fill.amounts (some allocation)
  let economicQuantity ← physicalQuantity b.nearest fill.qty fill.amounts
  let price ← fill.price
  let share ← (checkedDiv slice.quantity quantity).mapError ExactError.toString
  let qty ← (toF64 b.nearest slice.quantity).mapError ExactError.toString
  let fee ← sliceProjection b fill.fee slice.fee
  .ok ({ fill with
      qty := .finite qty
      fee := fee
      amounts := fill.amounts.map (fun amounts =>
        { amounts with quantity := .ofDerived slice.quantity, fee := slice.fee }) },
    { quantity := slice.quantity
      consideration := economicQuantity * price * share
      fee := slice.fee.map (fun fee => fee.amount.value) })

end LiquidityMigration.Execution
