import LiquidityMigration.Risk.LossWindow
import LiquidityMigration.Risk.Margin

/- The state of the risk kernel: how an order is reserved, and what the sleeves, the position no sleeve owns and the
   pending orders put at stake. A reserved order is a row of the book and one of the margin book, at the highest of
   the prices it names and the last one observed; its stop distance is taken between the lowest and the highest. What
   is at stake is valued at the higher of the observed price and the entry price (`priceFor`). -/
namespace LiquidityMigration.Risk
open Numeric Portfolio Checks RowSums
open Std (ExtTreeMap)

/-- Taking `qty` off on that side leaves every exposure between `low` and `high` on its side, or flat. -/
def staysInside (side : Side) (qty low high : Exact) : Bool :=
  match side with
  | .sell => qty ≤ low
  | .buy => high ≤ -qty

structure PhysicalExposureInterval where
  (low high : Exact)
  ordered : low ≤ high

namespace PhysicalExposureInterval

def fromExact (low high : Exact) : Except DenyReason PhysicalExposureInterval :=
  if h : low ≤ high ∧ validateStorage low = .ok () ∧ validateStorage high = .ok () then .ok ⟨low, high, h.1⟩
  else .error (unknown "physical exposure interval is unreadable")

def certainlyReduces (interval : PhysicalExposureInterval) (side : Side) (qty : Exact) : Bool :=
  0 < qty ∧ staysInside side qty interval.low interval.high

end PhysicalExposureInterval

structure Projected where
  (grossUsdt modelledStopChargeUsdt : Exact)

structure Kernel where
  cfg : KernelConfig
  envelope : Envelope
  book : Book
  lossWindow : LossWindow
  openPnlUsdt : Option Exact
  margin : MarginBook
  latestAccountObservedNs : Nat

def validPrice (value : F64) : Option Exact := (fromLegacyF64 value).toOption.filter (0 < ·)

def minPrice : Option Exact → Option Exact → Option Exact
  | some a, some b => some (min a b)
  | some a, none => some a
  | none, b => b

def approvedQuantity (b : Binary64) (intent : Intent) (qty : F64) : Option Exact :=
  match qty with
  | .nonFinite => none
  | .finite value =>
    if 0 < value then
      if qty = intent.qty then (intent.quantity b).toOption else (b.ofText qty).toOption
    else none

/-- How far a stop is from the worst of the prices between `low` and `high`. It has to be on the
protective side: below `floor` for a long position, above `ceiling` for a short one. -/
def stopDistance (beyond : DenyReason) (side : Side) (stop low high floor ceiling : Exact) : Except DenyReason Exact :=
  match side with
  | .buy => if stop < floor then .ok (high - stop) else .error beyond
  | .sell => if ceiling < stop then .ok (stop - low) else .error beyond

/-- The stop's distance as a share of the higher price. -/
def readStop (b : Binary64) (intent : Intent) (low high : Exact) : Except DenyReason Exact := do
  let stop ← (intent.stopPrice b).mapError fun _ => DenyReason.missingStop
  let trigger ← orError stop .missingStop
  let distance ← stopDistance .missingStop intent.side trigger low high low high
  (checkedDiv distance high).mapError unreadable

def recentQty (recent : RecentFills) (symbol : SymbolId) : Exact :=
  (recent[symbol]?.map RecentExposure.signedQty).getD 0

namespace Kernel

/-- `Kernel::new`, on a configuration that has passed its checks. -/
def new (b : Binary64) (cfg : KernelConfig) : Kernel where
  cfg := cfg
  envelope := .new b cfg.envelope
  book := .empty
  lossWindow := .empty
  openPnlUsdt := some 0
  margin := .empty
  latestAccountObservedNs := 0

variable (k : Kernel)

def observePrice (symbol : SymbolId) (px : F64) : Kernel := { k with book := k.book.observePx symbol px }

def observeReference (view : ViewFacts) (allowExpansion : Bool) : Kernel :=
  { k with
    envelope := k.envelope.observeEquity view.equityUsdt
      (allowExpansion && decide (k.latestAccountObservedNs ≤ view.observedNs))
    latestAccountObservedNs := max k.latestAccountObservedNs view.observedNs }

def pruneThrough (observedNs : Nat) : Kernel := { k with book := k.book.pruneThrough observedNs }

/-- The higher of the last observed price and the account's entry price. -/
def priceFor (symbol : SymbolId) (view : ViewFacts) : Option Exact :=
  maxPrice k.book.px[symbol]? (view.entryPrice symbol)

variable (b : Binary64)

def reservationPrice (intent : Intent) (price : F64) : Option Exact :=
  if intent.kind = .limit price then (intent.limitPrice b).toOption.join else validPrice price

def incrementalPhysicalQuantity (intent : Intent) (qty physical : Exact) : Except DenyReason Exact := do
  require (0 < qty) (unknown "unreadable physical margin reservation")
  let delta := signed intent.side qty
  let interval ← (k.book.physicalInterval intent.symbol physical).mapError unknown
  let endpoint := if delta < 0 then interval.1 else interval.2
  .ok (if endpoint = 0 ∨ (endpoint < 0 ↔ delta < 0) then |delta| else max (|delta| - |endpoint| * 2) 0)

/-- The stop distance an order is reserved at: from the lowest to the highest price it names or
was last seen at, unknown where there is none. -/
def reservedFraction (intent : Intent) (low high : Option Exact) : Option Exact :=
  if intent.reduceOnly then some 0
  else do
    let low ← low
    let high ← high
    (readStop b intent low high).toOption

/-- The row an order is reserved as, from the prices it names and the last one observed. -/
def pendingRow (observed : Option Exact) (intent : Intent) (quantity first second : Option Exact) : Pending :=
  let high := maxPrice (maxPrice first second) observed
  let low := minPrice (minPrice first second) observed
  { strategy := intent.strategy
    symbol := intent.symbol
    signedQty := quantity.map (signed intent.side)
    reduceOnly := intent.reduceOnly
    px := high
    stopFraction := reservedFraction b intent low high }

def registerPrices (k : Kernel) (id : String) (intent : Intent) (quantity first second : Option Exact) : Kernel :=
  -- an order whose prices contradict each other has no known quantity
  let quantity := quantity.filter fun _ => intent.validatePriceProjection b = .ok ()
  let row := pendingRow b k.book.px[intent.symbol]? intent quantity first second
  { k with
    margin := k.margin.register id intent.symbol quantity row.px
    book := k.book.register id row }

/-- The margin a reserved exit needs beyond the position it closes, and the kernel that has read
the account for it. -/
def exitMargin (k : Kernel) (intent : Intent) (quantity : Option Exact) (account : AccountView) :
    Kernel × Option Exact :=
  match ViewFacts.read b account 0 with
  | .error _ => (k, none)
  | .ok view =>
    let k := k.pruneThrough account.observedNs
    (k, do
      let recent ← k.book.netFills.toOption
      let qty ← quantity
      (k.incrementalPhysicalQuantity intent qty
        (view.netQty intent.symbol + recentQty recent intent.symbol)).toOption)

def registerOwnedPrices (k : Kernel) (id : String) (intent : Intent) (quantity first second : Option Exact)
    (account : AccountView) : Kernel :=
  let k := { k with book := k.book.forget id }
  let (k, marginQuantity) := if intent.reduceOnly then k.exitMargin b intent quantity account else (k, quantity)
  let k := k.registerPrices b id intent quantity first second
  { k with margin := k.margin.setQuantity id marginQuantity }

def registerOrderPriceRangeWithAccount (k : Kernel) (id : String) (intent : Intent) (qty low high : F64)
    (account : AccountView) : Kernel :=
  k.registerOwnedPrices b id intent (approvedQuantity b intent qty) (reservationPrice b intent low)
    (reservationPrice b intent high) account

def registerOrderWithAccount (k : Kernel) (id : String) (intent : Intent) (qty : F64) (account : AccountView) :
    Kernel :=
  let px := match intent.kind with | .limit px => px | .market => .finite 0
  k.registerOrderPriceRangeWithAccount b id intent qty px px account

/-- One stop's turn in the loop of `Kernel::held_stop_fraction`. -/
def worstStop (worst : Option Exact) (row : SymbolId × Side × Exact × Exact) : Except DenyReason (Option Exact) := do
  let (symbol, side, entry, stop) := row
  let current := k.book.px[symbol]?.getD entry
  let low := min current entry
  let high := max current entry
  let distance ← stopDistance (unknown "held position stop is not on the protective side of plausible prices")
    side stop low high current current
  let fraction ← (checkedDiv distance high).mapError unreadable
  .ok (some (worst.elim fraction (max · fraction)))

def heldStopFraction (symbol : SymbolId) (view : ViewFacts) : Except DenyReason Exact := do
  let worst ← (view.stops.filter (fun row => row.1 = symbol)).foldlM k.worstStop none
  orError worst (unknown "held position has no readable stop level")

/-- The gross notional of all pending orders and their stop charge, at the view's prices. -/
def pendingTotals (view : ViewFacts) : Except DenyReason (Exact × Exact) :=
  ((k.book.pendingRiskRows (k.priceFor · view)).mapError unknown).map k.envelope.pendingTotals

def charged (notional stop : Exact) : Exact × Exact :=
  (notional, k.envelope.modelledStopChargeUsdt notional stop)

/-- The share of one sleeve in `Kernel::projected_portfolio`. -/
def sleeveRisk (row : Held) : Except DenyReason (Exact × Exact) := do
  let current ← orError (k.book.px[row.symbol]?.or row.entryPx)
    (unknown "portfolio position has no market price or entry value")
  let entry := row.entryPx.getD current
  let price := max current entry
  let low := min current entry
  let stop ← orError row.stopPx .missingStop
  let distance ← stopDistance .missingStop (if 0 < row.qty then .buy else .sell) stop low price current current
  let fraction ← (checkedDiv distance price).mapError unreadable
  .ok (k.charged (|row.qty| * price) fraction)

variable (recent : RecentFills)

/-- The stop distance of what no sleeve owns: the held position's, or that of the fills alone. -/
def residualStop (view : ViewFacts) (symbol : SymbolId) : Except DenyReason Exact :=
  if view.netQty symbol ≠ 0 then k.heldStopFraction symbol view
  else orError (recent[symbol]?.bind RecentExposure.stopFraction)
    (unknown "unallocated physical exposure has no readable stop")

/-- What no sleeve owns of one symbol, in `Kernel::projected_portfolio`. -/
def residualRisk (view : ViewFacts) (portfolio : PortfolioFacts)
    (symbol : SymbolId) : Except DenyReason (Exact × Exact) :=
  let residual := view.netQty symbol + recentQty recent symbol - portfolio.net[symbol]?.getD 0
  if residual = 0 then .ok 0
  else do
    let price ← orError (k.priceFor symbol view) (unknown "no price for unallocated physical exposure")
    let stop ← k.residualStop recent view symbol
    .ok (k.charged (|residual| * price) stop)

/-- The symbols with a position, a recent fill or a sleeve, in order. -/
def exposedSymbols (view : ViewFacts) (portfolio : PortfolioFacts) : List SymbolId :=
  (view.net.map Prod.fst ++ recent.keys ++ portfolio.net.keys).dedup.insertionSort (· ≤ ·)

/-- The new order, the sleeves, what no sleeve owns, and what is pending. -/
def projectedPortfolio (notional fraction : Exact) (recent : RecentFills) (view : ViewFacts)
    (portfolio : PortfolioFacts) : Except DenyReason Projected := do
  let sleeves ← sumOk k.sleeveRisk portfolio.positions
  let residual ← sumOk (k.residualRisk recent view portfolio) (exposedSymbols recent view portfolio)
  let pending ← k.pendingTotals view
  let total := k.charged notional fraction + sleeves + residual + pending
  .ok ⟨total.1, total.2⟩

/-- The stop distance of the fills on a held symbol, zero where there are none. -/
def recentStop (symbol : SymbolId) : Except DenyReason Exact :=
  match recent[symbol]? with
  | some fill =>
    orError fill.stopFraction (unknown "a fill newer than the account view has no readable stop distance")
  | none => .ok 0

/-- The share of one held symbol in `Kernel::projected_book`. -/
def exposureRisk (k : Kernel) (recent : RecentFills) (view : ViewFacts) (row : SymbolId × Exact) :
    Except DenyReason (Exact × Exact) :=
  let effective := row.2 + recentQty recent row.1
  if |effective| ≤ b.policy k.cfg.qtyTolerance then .ok 0
  else do
    let filledStop ← recentStop recent row.1
    let price ← orError (k.priceFor row.1 view) (unknown "no price for a held symbol")
    let stop ← k.heldStopFraction row.1 view
    .ok (k.charged (|effective| * price) (max stop filledStop))

/-- The share of one symbol that only recent fills show, in `Kernel::projected_book`. -/
def justFilledRisk (k : Kernel) (view : ViewFacts) (row : SymbolId × RecentExposure) :
    Except DenyReason (Exact × Exact) :=
  if |row.2.signedQty| ≤ b.policy k.cfg.qtyTolerance then .ok 0
  else do
    let fraction ← orError row.2.stopFraction
      (unknown "a fill newer than the account view has no readable stop distance")
    let price ← orError (k.priceFor row.1 view) (unknown "no price for a just-filled symbol")
    .ok (k.charged (|row.2.signedQty| * price) fraction)

def projectedBook (k : Kernel) (notional fraction : Exact) (recent : RecentFills) (view : ViewFacts) :
    Except DenyReason Projected := do
  let held ← sumOk (k.exposureRisk b recent view) view.net
  let filled ← sumOk (k.justFilledRisk b view)
    (recent.toList.filter (fun row => view.net.all (fun exposure => exposure.1 ≠ row.1)))
  let pending ← k.pendingTotals view
  let total := k.charged notional fraction + held + filled + pending
  .ok ⟨total.1, total.2⟩

end Kernel

end LiquidityMigration.Risk
