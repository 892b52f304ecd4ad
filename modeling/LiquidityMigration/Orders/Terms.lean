import LiquidityMigration.Orders.DecimalWire
import LiquidityMigration.Risk.Order

/- Exact order terms. An order is brought onto the venue's grid once, with the roundings that favour no fill at a
   worse price (`quantizeWithExactPrices`), an amendment likewise (`quantizeAmend`); what goes to the wire is checked
   again by functions of their own (`validateWireGrid`). Where significant figures count, the step follows from the
   price's magnitude, and a price carried to the next power of ten has to lie on the step there. -/
namespace LiquidityMigration.Orders
open Numeric Checks Portfolio Risk

variable (value : Exact)

inductive TimeInForce where
  | gtc | ioc | postOnly
  deriving DecidableEq

inductive OrderKind where
  | market
  | limit (px : F64) (tif : TimeInForce)
  deriving DecidableEq

inductive PricePrecision where
  | tick
  | significantFigures (maxDigits maxDecimals : Nat) (integerException : Bool)
  | unavailable
  deriving DecidableEq

/-- What the venue says of an instrument, as far as an order's terms depend on it. -/
structure ExactInstrumentSpec where
  (tickSize minPrice maxPrice : Option Exact)
  pricePrecision : PricePrecision
  (qtyStep minQty marketQtyStep marketMinQty maxQty maxMarketQty minNotional : Option Exact)

inductive OrderInputPolicy where
  | strategyShortestDecimal | canonicalPortfolio
  deriving DecidableEq

inductive QuantityPolicy where
  | normal | closeEntirePosition
  deriving DecidableEq

structure ExactOrderTerms where
  quantity : Exact
  (limitPrice stopTriggerPrice physicalStopTriggerPrice : Option Exact)
  inputPolicy : OrderInputPolicy
  deriving DecidableEq

structure ExactAmendTerms where
  (quantity limitPrice : Option Exact)
  inputPolicy : OrderInputPolicy
  deriving DecidableEq

def checkBound (bound : Exact) : Except OrderLegalityError Unit := do
  numeric (validateStorage bound)
  require (¬ bound < 0) (.constraint "negative metadata bound")

def checkBounds (min max : Option Exact) (field : String) : Except OrderLegalityError Unit := do
  firstError ((min.toList ++ max.toList).map checkBound)
  require (¬ (min.any (fun min => value < min) ∨ max.any (fun max => max < value))) (.constraint field)

/-- `Exact::parse_decimal(&format!("1e{exponent}"))`. -/
def powerOfTen (exponent : Int) : Except ExactError Exact :=
  if maxDecimalExponent < exponent.natAbs then .error .exponentOutOfRange else .ok (10 ^ exponent)

def priceStep (spec : ExactInstrumentSpec) : Except OrderLegalityError Exact :=
  match spec.pricePrecision with
  | .tick => requiredPositive spec.tickSize "price tick"
  | .unavailable => .error (.unavailable "price precision")
  | .significantFigures maxDigits maxDecimals integerException => do
    require (¬ (maxDigits = 0 ∨ 4096 < maxDigits ∨ 4096 < maxDecimals)) (.constraint "price precision range")
    let first ← magnitude value
    let exponent := max (first - maxDigits + 1) (-maxDecimals)
    numeric (powerOfTen (if integerException then min exponent 0 else exponent))

def isMultipleOf (x step : Exact) : Except ExactError Bool :=
  if 0 < step then .ok (decide ((x / step).den = 1)) else .error .invalidStep

def snap (side : Side) (step : Exact) : Except ExactError Exact :=
  match side with
  | .buy => floorTo value step
  | .sell => ceilTo value step

def quantizePrice (side : Side) (spec : ExactInstrumentSpec) : Except OrderLegalityError Exact := do
  let step ← priceStep value spec
  let snapped ← numeric (snap value side step)
  let _ ← decimalWire snapped
  -- a power-of-ten carry can change the precision of significant figures
  let finalStep ← priceStep snapped spec
  let onGrid ← numeric (isMultipleOf snapped finalStep)
  require (onGrid = true) (.constraint "price significant figures")
  checkBounds snapped spec.minPrice spec.maxPrice "price bounds"
  .ok snapped

namespace ExactOrderTerms

def project (b : Binary64) (value : Exact) : Except OrderLegalityError Exact := do
  let _ ← decimalWire value
  numeric (toF64 b.nearest value)

def projectAll (b : Binary64) : Option Exact → Except OrderLegalityError (Option Exact)
  | none => .ok none
  | some value => (project b value).map some

def projection (b : Binary64) (terms : ExactOrderTerms) :
    Except OrderLegalityError (Exact × Option Exact × Option Exact × Option Exact) := do
  let quantity ← project b terms.quantity
  let limit ← projectAll b terms.limitPrice
  let sleeveStop ← projectAll b terms.stopTriggerPrice
  let physicalStop ← projectAll b terms.physicalStopTriggerPrice
  .ok (quantity, limit, sleeveStop, physicalStop)

def validateStorage (b : Binary64) (terms : ExactOrderTerms) : Except OrderLegalityError Unit :=
  (projection b terms).map fun _ => ()

end ExactOrderTerms

variable (b : Binary64) (spec : ExactInstrumentSpec) (kind : OrderKind)

/-- The quantity rules that go with the kind of an order: step, least and most. -/
def quantityRules : Option Exact × Option Exact × Option Exact :=
  match kind with
  | .market => (spec.marketQtyStep, spec.marketMinQty, spec.maxMarketQty)
  | .limit _ _ => (spec.qtyStep, spec.minQty, spec.maxQty)

def checkPriceGrid (what : String) (price : Exact) : Except OrderLegalityError Unit := do
  let snapped ← quantizePrice price .buy spec
  require (snapped = price) (.constraint what)

def checkQuantityGrid (quantity : Exact) : Except OrderLegalityError Unit := do
  let step ← requiredPositive (quantityRules spec kind).1 "quantity step"
  let onGrid ← numeric (isMultipleOf quantity step)
  require (onGrid = true) (.constraint "quantity grid")
  checkBounds quantity (quantityRules spec kind).2.1 (quantityRules spec kind).2.2 "quantity bounds"

/-- What is not asked of an order that closes the whole position. -/
def unlessClosing (policy : QuantityPolicy) (check : Except OrderLegalityError Unit) : Except OrderLegalityError Unit :=
  if policy ≠ .closeEntirePosition then check else .ok ()

@[simp] theorem unlessClosing_eq_ok {policy : QuantityPolicy} {check : Except OrderLegalityError Unit} :
    unlessClosing policy check = .ok () ↔ (policy ≠ .closeEntirePosition → check = .ok ()) := by
  unfold unlessClosing
  split
  · next h => simp [h]
  · next h => simp [h]

def ExactOrderTerms.validateWireGrid (terms : ExactOrderTerms) (spec : ExactInstrumentSpec)
    (kind : OrderKind) (policy : QuantityPolicy) : Except OrderLegalityError Unit := do
  terms.validateStorage b
  unlessClosing policy (checkQuantityGrid spec kind terms.quantity)
  firstError ((terms.limitPrice.toList ++ terms.stopTriggerPrice.toList ++ terms.physicalStopTriggerPrice.toList).map
    (checkPriceGrid spec "price grid"))

def orderQuantity (inputQty : Exact) (kind : OrderKind) (policy : QuantityPolicy) : Except OrderLegalityError Exact :=
  match policy with
  | .closeEntirePosition =>
    match kind with
    | .market | .limit _ .ioc => .ok inputQty
    | .limit _ _ => .error (.constraint "full-position close must be market or IOC limit")
  | .normal => do
    let step ← requiredPositive (quantityRules spec kind).1 "quantity step"
    let quantity ← numeric (floorTo inputQty step)
    let _ ← decimalWire quantity
    checkBounds quantity (quantityRules spec kind).2.1 (quantityRules spec kind).2.2 "quantity bounds"
    .ok quantity

def requestedLimit (prices : Option IntentPrices) : Except OrderLegalityError (Option Exact) :=
  match kind with
  | .market => .ok none
  | .limit px _ =>
    match prices.bind IntentPrices.limitPrice with
    | some price => .ok (some price)
    | none => (strategyDecimal b px).map some

def requestedStop (trigger : F64) (prices : Option IntentPrices) : Except OrderLegalityError Exact :=
  match prices.bind IntentPrices.stopTriggerPrice with
  | some price => .ok price
  | none => strategyDecimal b trigger

def flipped : Side → Side
  | .buy => .sell
  | .sell => .buy

variable (side : Side)

def orderLimit : Option Exact → Except OrderLegalityError (Option Exact)
  | none => .ok none
  | some price => (quantizePrice price side spec).map some

def orderReference : Option F64 → Except OrderLegalityError (Option Exact)
  | none => .ok none
  | some px => (strategyDecimal b px).map some

def checkNotional (quantity : Exact) (limit reference : Option Exact) : Except OrderLegalityError Unit :=
  match spec.minNotional with
  | none => .ok ()
  | some least => do
    require (¬ least < 0) (.constraint "negative minimum notional")
    numeric (validateStorage least)
    if 0 < least then do
      let price ← orError (limit.or reference) (.unavailable "notional reference price")
      require (¬ quantity * price < least) (.constraint "minimum notional")
    else .ok ()

def crosses (trigger price : Exact) : Prop :=
  match side with
  | .buy => price ≤ trigger
  | .sell => trigger ≤ price

instance : ∀ (side : Side) (trigger price : Exact), Decidable (crosses side trigger price)
  | .buy, trigger, price => inferInstanceAs (Decidable (price ≤ trigger))
  | .sell, trigger, price => inferInstanceAs (Decidable (trigger ≤ price))

/-- The stop, on the grid and on the protective side of the reference and the limit. -/
def orderStop (prices : Option IntentPrices)
    (limit reference : Option Exact) : Option F64 → Except OrderLegalityError (Option Exact)
  | none => .ok none
  | some trigger => do
    let requested ← requestedStop b trigger prices
    let trigger ← quantizePrice requested (flipped side) spec
    let reference ← orError reference (.unavailable "stop reference price")
    require (¬ (crosses side trigger reference ∨ limit.any (fun limit => crosses side trigger limit)))
      (.constraint "stop crosses current reference or order limit")
    .ok (some trigger)

def quantizeWithExactPrices (inputQty : Exact)
    (inputPolicy : OrderInputPolicy) (prices : Option IntentPrices) (kind : OrderKind) (stop : Option F64)
    (referencePx : Option F64) (policy : QuantityPolicy) : Except OrderLegalityError ExactOrderTerms := do
  numeric (validateStorage inputQty)
  let quantity ← orderQuantity spec inputQty kind policy
  let requested ← requestedLimit b kind prices
  let limit ← orderLimit spec side requested
  let reference ← orderReference b referencePx
  unlessClosing policy (checkNotional spec quantity limit reference)
  let trigger ← orderStop b spec side prices limit reference stop
  ExactOrderTerms.validateStorage b ⟨quantity, limit, trigger, trigger, inputPolicy⟩
  .ok ⟨quantity, limit, trigger, trigger, inputPolicy⟩

def checkEach {τ : Type} (o : Option τ) (check : τ → Except OrderLegalityError Unit) : Except OrderLegalityError Unit :=
  match o with
  | some value => check value
  | none => .ok ()

@[simp] theorem checkEach_eq_ok {τ : Type} {o : Option τ} {check : τ → Except OrderLegalityError Unit} :
    checkEach o check = .ok () ↔ ∀ value ∈ o, check value = .ok () := by
  cases o <;> simp [checkEach]

inductive SleeveOrderEffect where
  | increase (stop : F64)
  | reduce
  | emergencyNetReduction (emergencyId : Nat)
  deriving DecidableEq

/-- An order on its way, with the fields its terms are read from. -/
structure OrderRequest where
  exactTerms : Option ExactOrderTerms
  sleeveEffect : Option SleeveOrderEffect
  side : Side
  qty : F64
  kind : OrderKind
  stop : Option F64

def OrderRequest.sleeveStop (request : OrderRequest) : Option F64 :=
  match request.sleeveEffect with
  | some .reduce => none
  | some (.emergencyNetReduction _) => none
  | some (.increase stop) => some stop
  | none => request.stop

structure AmendSpec where
  (px qty : Option F64)
  exactTerms : Option ExactAmendTerms

def ExactOrderTerms.validateProjection (terms : ExactOrderTerms) (request : OrderRequest) :
    Except OrderLegalityError Unit := do
  let (quantity, limit, sleeveStop, physicalStop) ← terms.projection b
  require (F64.finite quantity = request.qty ∧
    limit.map F64.finite = (match request.kind with | .market => none | .limit px _ => some px) ∧
    sleeveStop.map F64.finite = request.sleeveStop ∧ physicalStop.map F64.finite = request.stop) .projection

namespace ExactAmendTerms

def checkQuantityGrid (spec : ExactInstrumentSpec) (quantity : Exact) : Except OrderLegalityError Unit := do
  let _ ← decimalWire quantity
  let step ← requiredPositive spec.qtyStep "quantity step"
  let onGrid ← numeric (isMultipleOf quantity step)
  require (onGrid = true) (.constraint "amend quantity grid")
  checkBounds quantity spec.minQty spec.maxQty "amend quantity bounds"

def validateWireGrid (terms : ExactAmendTerms) (spec : ExactInstrumentSpec) : Except OrderLegalityError Unit := do
  checkEach terms.quantity (checkQuantityGrid spec)
  checkEach terms.limitPrice (checkPriceGrid spec "amend price grid")

def validateProjection (b : Binary64) (terms : ExactAmendTerms) (amendment : AmendSpec) :
    Except OrderLegalityError Unit := do
  require (¬ (terms.quantity = none ∧ terms.limitPrice = none)) (.constraint "empty amendment")
  let quantity ← ExactOrderTerms.projectAll b terms.quantity
  let limit ← ExactOrderTerms.projectAll b terms.limitPrice
  require (quantity.map F64.finite = amendment.qty ∧ limit.map F64.finite = amendment.px) .projection

end ExactAmendTerms

variable (amendment : AmendSpec)

def amendRequestedQty (qty : F64) : Except OrderLegalityError Exact :=
  match amendment.exactTerms.bind ExactAmendTerms.quantity with
  | some quantity => .ok quantity
  | none => strategyDecimal b qty

def amendRequestedPx (px : F64) : Except OrderLegalityError Exact :=
  match amendment.exactTerms.bind ExactAmendTerms.limitPrice with
  | some price => .ok price
  | none => strategyDecimal b px

def amendQuantity : Except OrderLegalityError (Option Exact) :=
  match amendment.qty with
  | none => .ok none
  | some qty => do
    let requested ← amendRequestedQty b amendment qty
    let step ← requiredPositive spec.qtyStep "quantity step"
    let quantity ← numeric (floorTo requested step)
    .ok (some quantity)

def amendPrice : Except OrderLegalityError (Option Exact) :=
  match amendment.px with
  | none => .ok none
  | some px => do
    let requested ← amendRequestedPx b amendment px
    let price ← quantizePrice requested side spec
    .ok (some price)

variable (current : OrderRequest)

def fullQuantity (quantity : Option Exact) : Except OrderLegalityError Exact :=
  match quantity, current.exactTerms with
  | some quantity, _ => .ok quantity
  | none, some terms => .ok terms.quantity
  | none, none => strategyDecimal b current.qty

def fullPrice (currentPx : F64) (price : Option Exact) : Except OrderLegalityError Exact :=
  match price, current.exactTerms with
  | some price, _ => .ok price
  | none, some terms => orError terms.limitPrice .projection
  | none, none => strategyDecimal b currentPx

def checkAmendNotional (quantity price : Exact) : Except OrderLegalityError Unit :=
  match spec.minNotional with
  | none => .ok ()
  | some least => do
    numeric (validateStorage least)
    require (¬ least < 0) (.constraint "negative minimum notional")
    require (¬ quantity * price < least) (.constraint "minimum notional")

def currentTrigger (stop : F64) : Except OrderLegalityError Exact :=
  match current.exactTerms.bind ExactOrderTerms.stopTriggerPrice with
  | some trigger => .ok trigger
  | none => strategyDecimal b stop

def checkAmendStop (price : Exact) (referencePx : Option F64) : Except OrderLegalityError Unit :=
  match current.sleeveStop with
  | none => .ok ()
  | some stop => do
    let trigger ← currentTrigger b current stop
    let reference ← orderReference b referencePx
    let reference ← orError reference (.unavailable "stop reference price")
    require (¬ (crosses current.side trigger price ∨ crosses current.side trigger reference))
      (.constraint "amend crosses protective stop")

def limitPx : Except OrderLegalityError F64 :=
  match kind with
  | .market => .error (.constraint "only limit orders can be amended")
  | .limit px _ => .ok px

def quantizeAmend (amendment : AmendSpec) (referencePx : Option F64) : Except OrderLegalityError ExactAmendTerms := do
  require (¬ (amendment.px = none ∧ amendment.qty = none)) (.constraint "empty amendment")
  let currentPx ← limitPx current.kind
  checkEach current.exactTerms fun terms => terms.validateProjection b current
  checkEach amendment.exactTerms fun terms => terms.validateProjection b amendment
  let quantity ← amendQuantity b spec amendment
  let price ← amendPrice b spec current.side amendment
  let wholeQuantity ← fullQuantity b current quantity
  let wholePrice ← fullPrice b current currentPx price
  ExactOrderTerms.validateWireGrid b ⟨wholeQuantity, some wholePrice, none, none, .strategyShortestDecimal⟩ spec
    current.kind .normal
  checkAmendNotional spec wholeQuantity wholePrice
  checkAmendStop b current wholePrice referencePx
  .ok ⟨quantity, price, .strategyShortestDecimal⟩

end LiquidityMigration.Orders
