import LiquidityMigration.Numeric.Ieee
import LiquidityMigration.Orders.Terms

/- One order of the ledger: what the log says of it, what a fill makes of it, and the snapshot a segment base
   restates it by. Fills are counted exactly as long as each carries exact amounts; one that does not turns the count
   into a binary64 for good. The price is a range, kept exactly and as the binary64 of its ends.

   A check refuses with a text. Where the source expects what an earlier check has made sure of, the model fails with
   a `panic`, so that it can be proved that none is reached. A binary64 that is not finite stands for `+∞`. -/
namespace LiquidityMigration.Orders
open Numeric Checks

def OrderLegalityError.toString : OrderLegalityError → String
  | .number error => "invalid exact order amount: " ++ error.toString
  | .unavailable what => "required order capability unavailable: " ++ what
  | .constraint what => "order violates venue constraint: " ++ what
  | .projection => "exact terms disagree with compatibility order fields"

structure ExactAmendedTerms where
  (price quantity : ExactNumber)
  deriving DecidableEq

def ExactAmendedTerms.validateProjection (b : Binary64) (terms : ExactAmendedTerms) (px qty : F64) :
    Except OrderLegalityError Unit := do
  numeric (validateStorage terms.price.value)
  numeric (validateStorage terms.quantity.value)
  numeric terms.price.validateProvenance
  numeric terms.quantity.validateProvenance
  require (0 < terms.price.value ∧ 0 ≤ terms.quantity.value) (.constraint "amended order amounts")
  let price ← numeric (toF64 b.nearest terms.price.value)
  require (F64.finite price = px) .projection
  let quantity ← numeric (toF64 b.nearest terms.quantity.value)
  require (F64.finite quantity = qty) .projection

deriving instance DecidableEq for OrderRequest

end LiquidityMigration.Orders

namespace LiquidityMigration.Ledger
open Numeric Checks Orders Portfolio

variable {α : Type}

/-- How an operation ends early: refused with a text, or with an expectation broken. -/
inductive Failure where
  | refused (text : String)
  | panic (text : String)
  deriving DecidableEq

/-- `map_err(|e| e.to_string())?` on a number's error. -/
def refuseNumber (x : Except ExactError α) : Except Failure α := x.mapError fun e => .refused e.toString

/-- `map_err(|e| e.to_string())?` on an order's error. -/
def refuseTerms (x : Except OrderLegalityError α) : Except Failure α := x.mapError fun e => .refused e.toString

def expect {ε : Type} (x : Except ε α) (text : String) : Except Failure α := x.mapError fun _ => .panic text

@[simp] theorem refuseNumber_eq_ok {x : Except ExactError α} {a : α} : refuseNumber x = .ok a ↔ x = .ok a :=
  mapError_eq_ok

@[simp] theorem refuseTerms_eq_ok {x : Except OrderLegalityError α} {a : α} : refuseTerms x = .ok a ↔ x = .ok a :=
  mapError_eq_ok

@[simp] theorem expect_eq_ok {ε : Type} {x : Except ε α} {text : String} {a : α} : expect x text = .ok a ↔ x = .ok a :=
  mapError_eq_ok

structure WorkPolicy where
  restOnTightSpread : Bool
  (windowMs repriceMs crossGraceMs maxAmends : Nat)
  (urgencyJoinFrac urgencyImproveFrac improveLean backLean driftCrossFeeBp : F64)
  (holdDecisionPx giveUpInsteadOfCrossing : Bool)
  deriving DecidableEq

/-- An order as it was sent. -/
structure OrderRequest extends Orders.OrderRequest where
  clientOrderId : String
  strategy : StrategyId
  symbol : SymbolId
  (reduceOnly closePosition : Bool)
  deriving DecidableEq

def OrderRequest.isSleeveReduction (request : OrderRequest) : Bool :=
  match request.sleeveEffect with
  | some .reduce => true
  | some (.emergencyNetReduction _) => true
  | some (.increase _) => false
  | none => request.reduceOnly

inductive OrderFillQuantity where
  | exact (quantity : Exact)
  | legacyBinary64 (quantity : F64)
  deriving DecidableEq

inductive OrderEnding where
  | rejected (code : Int) (reason : String)
  | cancelled
  | filled
  | neverSent
  deriving DecidableEq

structure ExactPriceRange where
  (low high : Exact)
  deriving DecidableEq

structure TerminalOrderState where
  ending : OrderEnding
  retainedSinceMs : Int
  deriving DecidableEq

/-- An order as a segment base or a lineage record restates it. -/
structure OpenOrderState where
  request : OrderRequest
  entryWork : Option WorkPolicy
  wireNs : Nat
  arrivalMid : F64
  acked : Bool
  filledQty : F64
  fillQuantity : Option OrderFillQuantity
  (reservationLowPx reservationHighPx : F64)
  exactPriceRange : Option ExactPriceRange
  terminal : Option TerminalOrderState
  deriving DecidableEq

structure OrderRec where
  request : OrderRequest
  entryWork : Option WorkPolicy
  wireNs : Nat
  acked : Bool
  fillQuantity : OrderFillQuantity
  ending : Option OrderEnding
  terminalCheckpointMs : Option Int
  (arrivalMid reservationLowPx reservationHighPx : F64)
  exactPriceRange : ExactPriceRange
  deriving DecidableEq

def OrderRec.id (row : OrderRec) : String := row.request.clientOrderId

def OrderRec.inFlight (row : OrderRec) : Bool := row.ending.isNone

def limitPx (request : OrderRequest) : F64 :=
  match request.kind with
  | .limit (.finite px) _ => if 0 < px then .finite px else .finite 0
  | _ => .finite 0

def positiveOr (value fallback : F64) : F64 :=
  match value with
  | .finite v => if 0 < v then value else fallback
  | .nonFinite => fallback

def requestPriceRange (request : OrderRequest) : Except Failure ExactPriceRange := do
  let price ← match request.exactTerms.bind ExactOrderTerms.limitPrice with
    | some price => .ok price
    | none => expect (fromLegacyF64 (limitPx request)) "validated limit price"
  .ok ⟨price, price⟩

variable (b : Binary64) (order : OpenOrderState)

/-- The closure `restore` of `restored_price_range`: one end of a range that is only known as a binary64. -/
def restoredEnd (value : F64) (canonical : Exact) : Except Failure Exact :=
  match value with
  | .finite v =>
    if v ≤ 0 ∨ toF64 b.nearest canonical = .ok v then .ok canonical
    else expect (fromLegacyF64 value) "validated legacy price range"
  | .nonFinite => expect (fromLegacyF64 value) "validated legacy price range"

def restoredPriceRange : Except Failure ExactPriceRange :=
  match order.exactPriceRange with
  | some range => .ok range
  | none => do
    let request ← requestPriceRange order.request
    let low ← restoredEnd b order.reservationLowPx request.low
    let high ← restoredEnd b order.reservationHighPx request.high
    .ok ⟨low, high⟩

/-- `QTY_EPS`: the binary64 nearest to a billionth. -/
def qtyEps : ℚ := 4835703278458517 / 4835703278458516698824704

def sum (x y : ℚ) : F64 :=
  match b.nearest (x + y) with
  | some v => .finite v
  | none => .nonFinite

def initial (request : OrderRequest) : OrderFillQuantity :=
  if request.exactTerms.isSome then .exact 0 else .legacyBinary64 (.finite 0)

def restore : OrderFillQuantity :=
  order.fillQuantity.getD (.legacyBinary64 order.filledQty)

def projection : OrderFillQuantity → Except Failure ℚ
  | .exact quantity => do
    refuseNumber (validateStorage quantity)
    let value ← refuseNumber (toF64 b.nearest quantity)
    require (0 ≤ value) (.refused "invalid cumulative order fill quantity")
    .ok value
  | .legacyBinary64 (.finite value) => do
    require (0 ≤ value) (.refused "invalid cumulative order fill quantity")
    .ok value
  | .legacyBinary64 .nonFinite => .error (.refused "invalid cumulative order fill quantity")

namespace OrderRec
variable (b : Binary64) (row : OrderRec)

def filledQty : Except Failure ℚ := projection b row.fillQuantity

def remainingExact : Except Failure Exact :=
  match row.fillQuantity with
  | .exact quantity => do
    let requested ← orError row.request.exactTerms (.refused "exact fill frontier has no exact order terms")
    .ok (max (requested.quantity - quantity) 0)
  | .legacyBinary64 (.finite quantity) =>
    match row.request.qty with
    | .finite qty =>
      match b.nearest (qty - quantity) with
      | some left => .ok (max left 0)
      | none => if qty < quantity then .ok 0 else .error (.refused ExactError.nonFinite.toString)
    | .nonFinite => .error (.refused ExactError.nonFinite.toString)
  | .legacyBinary64 .nonFinite => .error (.refused ExactError.nonFinite.toString)

def exactFrontier (quantity : Exact) (qty : ℚ) (amounts : ExecutionAmounts) : Except Failure OrderFillQuantity := do
  refuseNumber amounts.quantity.validateProvenance
  let value ← refuseNumber (toF64 b.nearest amounts.quantity.value)
  require (value = qty ∧ 0 < amounts.quantity.value) (.refused "order fill quantity disagrees with its exact value")
  let requested ← orError row.request.exactTerms (.refused "exact fill frontier has no exact order terms")
  require (quantity + amounts.quantity.value ≤ requested.quantity)
    (.refused "exact execution exceeds the order's remaining quantity")
  let _ ← refuseNumber (toF64 b.nearest (requested.quantity - (quantity + amounts.quantity.value)))
  .ok (.exact (quantity + amounts.quantity.value))

def nextFrontier (qty : ℚ) (amounts : Option ExecutionAmounts) : Except Failure OrderFillQuantity :=
  match row.fillQuantity, amounts with
  | .exact quantity, some amounts => row.exactFrontier b quantity qty amounts
  | frontier, _ => do
    let filled ← projection b frontier
    .ok (.legacyBinary64 (sum b filled qty))

def isDone (filled : ℚ) : OrderFillQuantity → Except Failure Bool
  | .exact quantity => do
    let terms ← orError row.request.exactTerms (.refused "missing exact order quantity")
    .ok (decide (quantity = terms.quantity))
  | .legacyBinary64 _ =>
    match sum b filled qtyEps, row.request.qty with
    | .finite reached, .finite qty => .ok (decide (qty ≤ reached))
    | _, _ => .ok false

def nextFill (qty : F64) (amounts : Option ExecutionAmounts) : Except Failure (OrderFillQuantity × Bool) :=
  match qty with
  | .nonFinite => .error (.refused "invalid order fill quantity")
  | .finite qty => do
    require (0 < qty) (.refused "invalid order fill quantity")
    let frontier ← row.nextFrontier b qty amounts
    let filled ← projection b frontier
    let done ← row.isDone b filled frontier
    .ok (frontier, done)

def commitFill (qty : F64) (amounts : Option ExecutionAmounts) : Except Failure OrderRec := do
  let (frontier, done) ← expect (row.nextFill b qty amounts) "validated order fill"
  .ok { row with
    fillQuantity := frontier
    terminalCheckpointMs := none
    ending := if done then some .filled else row.ending }

def snapshot (nowMs : Int) : Except Failure OpenOrderState := do
  let filledQty ← expect (row.filledQty b) "validated order fill projection"
  .ok {
    request := row.request
    entryWork := row.entryWork
    wireNs := row.wireNs
    arrivalMid := row.arrivalMid
    acked := row.acked
    filledQty := .finite filledQty
    fillQuantity := some row.fillQuantity
    reservationLowPx := row.reservationLowPx
    reservationHighPx := row.reservationHighPx
    exactPriceRange := some row.exactPriceRange
    terminal := row.ending.map (fun ending => ⟨ending, row.terminalCheckpointMs.getD nowMs⟩) }

end OrderRec

/-- The row `restore_snapshot_order` makes of a snapshot. -/
def restoredRow : Except Failure OrderRec := do
  let range ← restoredPriceRange b order
  .ok {
    request := order.request
    entryWork := order.entryWork
    wireNs := order.wireNs
    acked := order.acked
    fillQuantity := restore order
    ending := order.terminal.map TerminalOrderState.ending
    terminalCheckpointMs := order.terminal.map TerminalOrderState.retainedSinceMs
    arrivalMid := order.arrivalMid
    reservationLowPx := positiveOr order.reservationLowPx (limitPx order.request)
    reservationHighPx := positiveOr order.reservationHighPx (limitPx order.request)
    exactPriceRange := range }

def checkReservation : F64 → Except Failure Unit
  | .finite px => require (0 ≤ px) (.refused "invalid legacy reservation price")
  | .nonFinite => .error (.refused "invalid legacy reservation price")

def checkRange : Except Failure Unit := do
  let range ← restoredPriceRange b order
  refuseNumber (validateStorage range.low)
  refuseNumber (validateStorage range.high)
  require (¬ (range.low < 0 ∨ range.high < range.low)) (.refused "invalid canonical reservation price range")
  let current ← requestPriceRange order.request
  require (¬ (current.low < range.low ∨ range.high < current.high))
    (.refused "reservation price range excludes the current request")

def checkProjections : Except Failure Unit :=
  match order.exactPriceRange with
  | none => .ok ()
  | some range => do
    let low ← refuseNumber (toF64 b.nearest range.low)
    require (F64.finite low = order.reservationLowPx)
      (.refused "canonical reservation price range disagrees with projection")
    let high ← refuseNumber (toF64 b.nearest range.high)
    require (F64.finite high = order.reservationHighPx)
      (.refused "canonical reservation price range disagrees with projection")

def checkTerms (request : OrderRequest) : Except Failure Unit :=
  match request.exactTerms with
  | none => .ok ()
  | some terms => refuseTerms (terms.validateProjection b request.toOrderRequest)

def checkFrontier : Except Failure Unit := do
  let filled ← projection b (restore order)
  require (F64.finite filled = order.filledQty) (.refused "order fill frontier disagrees with its quantity projection")
  match restore order with
  | .legacyBinary64 _ => .ok ()
  | .exact quantity => do
    let requested ← orError order.request.exactTerms (.refused "exact fill frontier has no exact order terms")
    require (¬ (requested.quantity < quantity ∨ quantity = requested.quantity ∧ order.terminal = none))
      (.refused "an exact completed order cannot be restated as open")
    let _ ← refuseNumber (toF64 b.nearest (requested.quantity - quantity))

def validateRestored : Except Failure Unit := do
  checkReservation order.reservationLowPx
  checkReservation order.reservationHighPx
  checkRange b order
  checkProjections b order
  checkTerms b order.request
  checkFrontier b order

end LiquidityMigration.Ledger
