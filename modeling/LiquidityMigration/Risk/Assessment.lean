import LiquidityMigration.Risk.Kernel

/- One assessment of an intent against the account, the sleeves' portfolio and everything reserved so far.
   `evaluateInventory` moves the capital reference, drops fills the view shows and notes the open result, also when
   it refuses; all of it before the checks that decide, `evaluateReduction` for exits and `openingChecks` for the
   rest. No branch touches a pending order or an observed price (`assessPortfolio_book`). -/
namespace LiquidityMigration.Risk
open Numeric Portfolio Checks RowSums
open Std (ExtTreeMap)

inductive PortfolioRiskVerdict where
  | allow (qty : Exact) (venueReduceOnly : Bool)
  | deny (reason : DenyReason)
  deriving DecidableEq

inductive RiskVerdict where
  | allow (qty : ℚ)
  | deny (reason : DenyReason)
  deriving DecidableEq

/-- What one evaluation has read before it decides: the locals of `evaluate_inventory`. -/
structure Evaluation where
  intent : Intent
  account : AccountView
  portfolio : Option PortfolioFacts
  ageNs : Nat
  tolerance : Exact
  view : ViewFacts
  ask : Exact
  recent : RecentFills

namespace Evaluation
variable (e : Evaluation)

def physical : Exact := e.view.netQty e.intent.symbol + recentQty e.recent e.intent.symbol

/-- What the intent's owner holds: its sleeve, or the whole position where there are no sleeves. -/
def settled : Exact :=
  match e.portfolio with
  | some portfolio => portfolio.owned e.intent.strategy e.intent.symbol
  | none => e.physical

def delta : Exact := signed e.intent.side e.ask

def reduces : Prop := e.tolerance < |e.settled| ∧ e.delta ≠ 0 ∧ ¬ (e.delta < 0 ↔ e.settled < 0)
  deriving Decidable

end Evaluation

namespace Kernel
variable (b : Binary64)

def checkAvailable (additional : Exact) (view : ViewFacts) : Except DenyReason Unit :=
  require (additional ≤ view.availableUsdt)
    (.availableMarginExhausted (b.report additional) (b.report view.availableUsdt))

variable (k : Kernel) (e : Evaluation) (intent : Intent) (account : AccountView)

def unreflectedMargin (view : ViewFacts) : Except DenyReason Exact :=
  (k.margin.required view.observedNs (b.policy k.cfg.leverage) (k.priceFor · view)).mapError unknown

/-- `Kernel::account_caps`. The leverage is positive, so its divisions go through. -/
def accountCaps (notional : Exact) (projected : Projected) (view : ViewFacts) : Except DenyReason Unit := do
  let cap := b.policy k.cfg.envelope.maxComponentGrossNotionalUsdt * k.envelope.scale
  require (projected.grossUsdt ≤ cap) (.componentGrossBreached (b.report projected.grossUsdt) (b.report cap))
  let leverage := b.policy k.cfg.leverage
  let margin := projected.grossUsdt / leverage
  let marginCap := b.policy k.cfg.envelope.maxInitialMarginUsdt * k.envelope.scale
  require (margin ≤ marginCap) (.initialMarginBreached (b.report margin) (b.report marginCap))
  let unreflected ← k.unreflectedMargin b view
  checkAvailable b (notional / leverage + unreflected) view

def checkMarginRates (amounts : AccountAmounts) : Except DenyReason Unit := do
  let cap ← (checkedDiv (b.policy k.cfg.envelope.maxInitialMarginUsdt)
    (b.policy k.cfg.envelope.referenceUsdt)).mapError unreadable
  let noCapacity := unknown "venue margin ratio leaves no capacity for growth"
  let initial ← optionalNumber amounts.initialMarginRate
  require (∀ rate ∈ initial, rate < cap) noCapacity
  let maintenance ← optionalNumber amounts.maintenanceMarginRate
  require (∀ rate ∈ maintenance, rate < 1) noCapacity

/-- The stop of a position on that side is reached before the liquidation price. -/
def beforeLiquidation (side : Side) (stop liquidation : Exact) : Bool :=
  match side with
  | .buy => liquidation < stop
  | .sell => stop < liquidation

def checkLiquidation (position : PositionView) : Except DenyReason Unit := do
  let qty ← (position.quantity b).mapError unreadable
  if 0 < qty then
    match position.exactAmounts with
    | none => .ok ()
    | some amounts => do
      match ← optionalNumber amounts.liquidationPrice with
      | none => .ok ()
      | some liquidation =>
        let stop ← (position.stopPrice b).mapError unreadable
        require (position.stopAttached ∧ beforeLiquidation position.side stop liquidation)
          (unknown "held stop is beyond the venue liquidation price")
  else .ok ()

def checkVenueMarginAndLiquidation : Except DenyReason Unit := do
  match account.exactAmounts with
  | none => .ok ()
  | some amounts => k.checkMarginRates b amounts
  account.positions.forM (checkLiquidation b)

/-- A surviving sleeve needs a stop wherever the position can end up on its side. -/
def checkSurvivor (delta low high current : Exact) (row : Held) : Except DenyReason Unit :=
  let remaining := row.qty + if row.strategy = e.intent.strategy then delta else 0
  if (0 < remaining ∧ 0 < high) ∨ (remaining < 0 ∧ low < 0) then do
    let stop ← orError row.stopPx .missingStop
    require (¬ (0 < remaining ∧ current ≤ stop) ∧ ¬ (remaining < 0 ∧ stop ≤ current)) .missingStop
  else .ok ()

/-- An exit that may add physical exposure is judged as growth. -/
def checkVirtualReduction (portfolio : PortfolioFacts) (qty : Exact) : Except DenyReason Unit := do
  let interval ← (k.book.physicalInterval e.intent.symbol e.physical).mapError unknown
  if staysInside e.intent.side qty interval.1 interval.2 then .ok ()
  else
    require (e.ageNs ≤ k.cfg.maxAccountViewAgeNs) (.staleAccountView e.ageNs k.cfg.maxAccountViewAgeNs)
    require (k.latestAccountObservedNs ≤ e.view.observedNs)
      (unknown "virtual reduction would add physical risk against an older account view")
    let delta := signed e.intent.side qty
    let price ← orError (k.priceFor e.intent.symbol e.view)
      (unknown "no price for physical exposure produced by a virtual reduction")
    let current ← orError (k.book.px[e.intent.symbol]?.or (e.view.entryPrice e.intent.symbol))
      (unknown "no current reference for virtual reduction protection")
    (portfolio.positions.filter (fun row => row.symbol = e.intent.symbol)).forM
      (checkSurvivor e delta (interval.1 + delta) (interval.2 + delta) current)
    let incremental ← k.incrementalPhysicalQuantity e.intent qty e.physical
    let unreflected ← k.unreflectedMargin b e.view
    checkAvailable b (incremental * price / b.policy k.cfg.leverage + unreflected) e.view

def checkExitLimit : Except DenyReason Unit :=
  match intent.kind with
  | .limit px => require ((validPrice px).isSome) (unknown "exit limit price is not a positive number")
  | .market => .ok ()

/-- What resting exits already cover: the sleeve's own, or all of the symbol's. -/
def covered : Except String Exact :=
  if e.portfolio.isSome then k.book.ownedReduceQty e.intent.strategy e.intent.symbol
  else k.book.pendingReduceQty e.intent.symbol

def checkOwned (qty : Exact) : Except DenyReason Unit :=
  match e.portfolio with
  | some portfolio => k.checkVirtualReduction b e portfolio qty
  | none => .ok ()

/-- The branch of `evaluate_inventory` for exits: at most what is not covered yet. -/
def evaluateReduction : Except DenyReason Exact := do
  require e.reduces (unknown "reduce_only intent does not reduce the position it names")
  checkExitLimit e.intent
  let covered ← (k.covered e).mapError unknown
  let uncovered := |e.settled| - covered
  require (e.tolerance < uncovered) (unknown "the position is already fully covered by resting exits")
  let qty := min e.ask uncovered
  k.checkOwned b e qty
  .ok qty

def rollingLossLimit : Exact := b.policy k.cfg.maxRollingLossFraction * k.envelope.referenceUsdt

/-- The closed trades' result with the open positions' loss, never their gain. -/
def riskNetUsdt : Option Exact := k.openPnlUsdt.map fun pnl => k.lossWindow.netUsdt.getD 0 + min pnl 0

def checkRollingLoss : Except DenyReason Unit :=
  match k.riskNetUsdt.filter (· ≤ -k.rollingLossLimit b) with
  | some net => .error (.rollingLossTripped (b.report net) (b.report (k.rollingLossLimit b)) rollingLossWindowMs)
  | none => .ok ()

/-- What the owner's other opening orders already take off the position. -/
def opposite : Except String Exact :=
  if e.portfolio.isSome then k.book.ownedOpenQty e.intent.strategy e.intent.symbol e.intent.side
  else k.book.pendingOpenQty e.intent.symbol e.intent.side

/-- An opening order against a position does not carry it through flat. -/
def checkCross : Except DenyReason Unit :=
  if e.reduces then do
    let opposite ← (k.opposite e).mapError unknown
    require (opposite + e.ask ≤ |e.settled| + e.tolerance) (unknown "intent crosses through flat to the other side")
  else .ok ()

/-- The lower and the higher of the order's own price and the reference. -/
def entryPrices (view : ViewFacts) : Except DenyReason (Exact × Exact) := do
  let quoted ← (intent.limitPrice b).mapError
    fun _ => unknown "limit price is not a positive number or disagrees with its canonical value"
  match quoted, k.priceFor intent.symbol view with
  | some x, some y => if x ≤ y then .ok (x, y) else .ok (y, x)
  | some x, none => .ok (x, x)
  | none, some y => .ok (y, y)
  | none, none => .error (unknown "no price to value this symbol")

def projected (notional fraction : Exact) : Except DenyReason Projected :=
  match e.portfolio with
  | some portfolio => k.projectedPortfolio notional fraction e.recent e.view portfolio
  | none => k.projectedBook b notional fraction e.recent e.view

def heldQty : Exact :=
  match e.portfolio with
  | some portfolio => portfolio.symbolGrossQuantity e.intent.symbol e.physical
  | none => |e.physical|

def heldPrice (px : Exact) : Exact :=
  ((k.priceFor e.intent.symbol e.view).map (max · px)).getD px

/-- `max_symbol_notional_usdt`, scaled with the reference. -/
def symbolCap : Exact := b.policy k.cfg.envelope.maxSymbolNotionalUsdt * k.envelope.scale

/-- The branch of `evaluate_inventory` for opening orders, once the account is noted. -/
def openingChecks : Except DenyReason Exact := do
  k.checkRollingLoss b
  k.checkCross e
  require (e.view.unprotected = false ∧ e.intent.stop.isSome) .missingStop
  let (low, px) ← k.entryPrices b e.intent e.view
  let fraction ← readStop b e.intent low px
  let notional := e.ask * px
  let projected ← k.projected b e notional fraction
  require (projected.modelledStopChargeUsdt ≤ k.envelope.allowanceUsdt)
    (.envelopeBreached (b.report projected.modelledStopChargeUsdt) (b.report k.envelope.allowanceUsdt))
  k.accountCaps b notional projected e.view
  let heldPrice := k.heldPrice e px
  let pending ← (k.book.pendingSymbolNotional e.intent.symbol heldPrice).mapError unknown
  let symbolNotional := notional + heldQty e * heldPrice + pending
  require (symbolNotional ≤ k.symbolCap b)
    (.symbolNotionalBreached e.intent.symbol (b.report symbolNotional) (b.report (k.symbolCap b)))
  require (fraction * b.policy k.cfg.leverage < 1) (unknown "stop distance must be below 1 / leverage")
  k.checkVenueMarginAndLiquidation b e.account
  .ok e.ask

/-- An opening order's turn: the account is noted, then the order is judged. -/
def evaluateOpening : Kernel × Except DenyReason Exact :=
  if k.cfg.maxAccountViewAgeNs < e.ageNs then (k, .error (.staleAccountView e.ageNs k.cfg.maxAccountViewAgeNs))
  else if e.account.observedNs < k.latestAccountObservedNs then
    (k, .error (unknown "account view predates the latest observed account state"))
  else
    let k := k.observeReference e.view true
    if ¬ k.lossWindow.valid then
      (k, .error (unknown "closed-trade account-unit valuation is unavailable or invalid"))
    else match accountOpenPnl b e.account with
      | .error reason => (k, .error reason)
      | .ok pnl =>
        let k := { k with openPnlUsdt := some pnl }
        (k, k.openingChecks b e)

def readAsk : Except DenyReason Exact := do
  if intent.exactPrices.isSome then (intent.validatePriceProjection b).mapError unreadable else .ok ()
  (intent.quantity b).mapError unreadable

def evaluateInventory (portfolio : Option PortfolioFacts)
    (nowNs : Nat) : Kernel × Except DenyReason Exact :=
  if nowNs < account.observedNs then (k, .error (unknown "account view is newer than its admission time"))
  else
    let tolerance := if portfolio.isSome then 0 else b.policy k.cfg.qtyTolerance
    match ViewFacts.read b account tolerance with
    | .error reason => (k, .error reason)
    | .ok view =>
      -- reductions also contract budgets, but do not need an expanding budget
      let k := k.observeReference view false
      match readAsk b intent with
      | .error reason => (k, .error reason)
      | .ok ask =>
        let k := k.pruneThrough account.observedNs
        match k.book.netFills with
        | .error detail => (k, .error (unknown detail))
        | .ok recent =>
          let e : Evaluation := ⟨intent, account, portfolio, nowNs - account.observedNs, tolerance, view, ask, recent⟩
          if intent.reduceOnly then (k, k.evaluateReduction b e) else k.evaluateOpening b e

/-- The exposures the pending orders of a symbol can lead to, from the view and the fills it does not show. -/
def intervalOn (view : ViewFacts) (symbol : SymbolId) : Except DenyReason PhysicalExposureInterval := do
  let recent ← k.book.netFills.mapError unknown
  let interval ← (k.book.physicalInterval symbol (view.netQty symbol + recentQty recent symbol)).mapError unknown
  PhysicalExposureInterval.fromExact interval.1 interval.2

def physicalIntervalFor (symbol : SymbolId) (account : AccountView) :
    Kernel × Except DenyReason PhysicalExposureInterval :=
  match ViewFacts.read b account 0 with
  | .error reason => (k, .error reason)
  | .ok view =>
    let k := k.pruneThrough account.observedNs
    (k, k.intervalOn view symbol)

def assessPortfolio (portfolio : PortfolioState)
    (nowNs : Nat) : Kernel × PortfolioRiskVerdict :=
  match PortfolioFacts.read portfolio with
  | .error reason => (k, .deny reason)
  | .ok facts =>
    match k.evaluateInventory b intent account (some facts) nowNs with
    | (k, .error reason) => (k, .deny reason)
    | (k, .ok qty) =>
      match k.physicalIntervalFor b intent.symbol account with
      | (k, .error reason) => (k, .deny reason)
      | (k, .ok interval) => (k, .allow qty (intent.reduceOnly && interval.certainlyReduces intent.side qty))

def assess (nowNs : Nat) : Kernel × RiskVerdict :=
  match k.evaluateInventory b intent account none nowNs with
  | (k, .error reason) => (k, .deny reason)
  | (k, .ok qty) =>
    match toF64 b.nearest qty with
    | .error e => (k, .deny (unreadable e))
    | .ok qty => (k, .allow qty)

section
variable {b} {k k' : Kernel} {intent : Intent} {account : AccountView}

variable (b intent account) in
/-- What an evaluation that was made for an intent has read. -/
structure ReadFor (portfolio : Option PortfolioFacts)
    (tolerance : Exact) (book : Book) (e : Evaluation) : Prop where
  intent_eq : e.intent = intent
  account_eq : e.account = account
  portfolio_eq : e.portfolio = portfolio
  tolerance_eq : e.tolerance = tolerance
  view_eq : ViewFacts.read b account tolerance = .ok e.view
  ask_eq : readAsk b intent = .ok e.ask
  recent_eq : book.netFills = .ok e.recent

theorem evaluateOpening_book (k : Kernel) (e : Evaluation) : (k.evaluateOpening b e).1.book = k.book := by
  unfold evaluateOpening
  split
  · rfl
  · split
    · rfl
    · dsimp only
      split
      · rfl
      · split <;> rfl

variable (b k intent account) in
theorem evaluateInventory_book (portfolio : Option PortfolioFacts) (nowNs : Nat) :
    (k.evaluateInventory b intent account portfolio nowNs).1.book = k.book ∨
    (k.evaluateInventory b intent account portfolio nowNs).1.book = k.book.pruneThrough account.observedNs := by
  unfold evaluateInventory
  split
  · exact .inl rfl
  · dsimp only
    split
    · exact .inl rfl
    · split
      · exact .inl rfl
      · right
        split
        · rfl
        · split
          · rfl
          · exact evaluateOpening_book _ _

theorem readAsk_ok {ask : Exact} (h : readAsk b intent = .ok ask) : intent.quantity b = .ok ask := by
  unfold readAsk at h
  split at h
  · simp only [bind_eq_ok, mapError_eq_ok] at h
    obtain ⟨-, -, h⟩ := h
    exact h
  · simp only [bind_eq_ok, mapError_eq_ok] at h
    obtain ⟨-, -, h⟩ := h
    exact h

variable {e : Evaluation} {q : Exact} (portfolio : PortfolioState)

theorem evaluateReduction_ok (h : k.evaluateReduction b e = .ok q) :
    e.reduces ∧ ∃ covered, k.covered e = .ok covered ∧ e.tolerance < |e.settled| - covered ∧
      q = min e.ask (|e.settled| - covered) := by
  simp only [evaluateReduction, bind_eq_ok, require_eq_ok, mapError_eq_ok, Except.ok.injEq] at h
  obtain ⟨-, hreduces, -, -, covered, hcovered, -, hopen, -, -, rfl⟩ := h
  exact ⟨hreduces, covered, hcovered, hopen, rfl⟩

variable (b k e) in
/-- What the checks of an opening order have established. -/
structure Opened where
  (low px fraction : Exact)
  projected : Projected
  pending : Exact
  cross : k.checkCross e = .ok ()
  prices : k.entryPrices b e.intent e.view = .ok (low, px)
  stop : readStop b e.intent low px = .ok fraction
  projected_eq : k.projected b e (e.ask * px) fraction = .ok projected
  charge_le : projected.modelledStopChargeUsdt ≤ k.envelope.allowanceUsdt
  gross_le : projected.grossUsdt ≤ b.policy k.cfg.envelope.maxComponentGrossNotionalUsdt * k.envelope.scale
  pending_eq : k.book.pendingSymbolNotional e.intent.symbol (k.heldPrice e px) = .ok pending
  symbol_le : e.ask * px + heldQty e * k.heldPrice e px + pending ≤ k.symbolCap b

theorem accountCaps_ok {notional : Exact} {projected : Projected} {view : ViewFacts}
    (h : k.accountCaps b notional projected view = .ok ()) :
    projected.grossUsdt ≤ b.policy k.cfg.envelope.maxComponentGrossNotionalUsdt * k.envelope.scale := by
  simp only [accountCaps, bind_eq_ok, require_eq_ok] at h
  obtain ⟨-, hgross, -⟩ := h
  exact hgross

theorem openingChecks_ok (h : k.openingChecks b e = .ok q) : q = e.ask ∧ Nonempty (Opened b k e) := by
  simp only [openingChecks, bind_eq_ok, require_eq_ok, mapError_eq_ok, Except.ok.injEq] at h
  obtain ⟨_, -, ⟨⟩, hcross, _, -, ⟨low, px⟩, hprices, fraction, hstop, projected, hprojected, _, hcharge, ⟨⟩, hcaps,
    pending, hpending, _, hsymbol, -, -, -, -, rfl⟩ := h
  exact ⟨rfl, ⟨⟨low, px, fraction, projected, pending, hcross, hprices, hstop, hprojected, hcharge,
    accountCaps_ok hcaps, hpending, hsymbol⟩⟩⟩

theorem evaluateOpening_ok (h : k.evaluateOpening b e = (k', .ok q)) :
    k'.openingChecks b e = .ok q ∧ k'.book = k.book ∧ k'.cfg = k.cfg ∧
    k.latestAccountObservedNs ≤ e.account.observedNs ∧
    k'.envelope = (k.observeReference e.view true).envelope := by
  unfold evaluateOpening at h
  split at h
  · simp at h
  · split at h
    · simp at h
    · next hlatest =>
      dsimp only at h
      split at h
      · simp at h
      · split at h
        · simp at h
        · obtain ⟨rfl, hq⟩ := Prod.mk.inj h
          exact ⟨hq, rfl, rfl, not_lt.mp hlatest, rfl⟩

theorem evaluateInventory_ok {facts : PortfolioFacts} {nowNs : Nat}
    (h : k.evaluateInventory b intent account (some facts) nowNs = (k', .ok q)) :
    ∃ e, ReadFor b intent account (some facts) 0 k'.book e ∧ k'.book = k.book.pruneThrough account.observedNs ∧
      k'.cfg = k.cfg ∧
      ((intent.reduceOnly = true ∧ k'.evaluateReduction b e = .ok q) ∨
       (intent.reduceOnly = false ∧ k'.openingChecks b e = .ok q ∧
        max k.latestAccountObservedNs e.view.observedNs ≤ account.observedNs ∧
        k'.envelope = ((k.observeReference e.view false).observeReference e.view true).envelope)) := by
  unfold evaluateInventory at h
  split at h
  · simp at h
  · simp only [Option.isSome_some, ↓reduceIte] at h
    split at h
    · simp at h
    · next view hview =>
      split at h
      · simp at h
      · next ask hask =>
        split at h
        · simp at h
        · next recent hrecent =>
          split at h
          · next hro =>
            obtain ⟨rfl, hq⟩ := Prod.mk.inj h
            exact ⟨_, ⟨rfl, rfl, rfl, rfl, hview, hask, hrecent⟩, rfl, rfl, .inl ⟨hro, hq⟩⟩
          · next hro =>
            obtain ⟨hq, hbook, hcfg, hlatest, henv⟩ := evaluateOpening_ok h
            refine ⟨_, ⟨rfl, rfl, rfl, rfl, hview, hask, ?_⟩, hbook, hcfg,
              .inr ⟨by simpa using hro, hq, hlatest, henv⟩⟩
            rw [hbook]
            exact hrecent

variable (b k intent account) in
/-- What an allowed assessment has established. -/
structure Allowed (k' : Kernel) (q : Exact) (venueReduceOnly : Bool) where
  facts : PortfolioFacts
  e : Evaluation
  interval : PhysicalExposureInterval
  facts_eq : PortfolioFacts.read portfolio = .ok facts
  read : ReadFor b intent account (some facts) 0 k'.book e
  book_eq : k'.book = k.book.pruneThrough account.observedNs
  cfg_eq : k'.cfg = k.cfg
  branch : (intent.reduceOnly = true ∧ k'.evaluateReduction b e = .ok q) ∨
    (intent.reduceOnly = false ∧ k'.openingChecks b e = .ok q ∧
      max k.latestAccountObservedNs e.view.observedNs ≤ account.observedNs ∧
      k'.envelope = ((k.observeReference e.view false).observeReference e.view true).envelope)
  interval_eq : k'.book.physicalInterval intent.symbol e.physical = .ok (interval.low, interval.high)
  reduces_eq : venueReduceOnly = (intent.reduceOnly && interval.certainlyReduces intent.side q)

theorem physicalIntervalFor_ok {symbol : SymbolId} {interval : PhysicalExposureInterval}
    (h : k.physicalIntervalFor b symbol account = (k', .ok interval)) :
    ∃ view recent, ViewFacts.read b account 0 = .ok view ∧ k' = k.pruneThrough account.observedNs ∧
      k'.book.netFills = .ok recent ∧
      k'.book.physicalInterval symbol (view.netQty symbol + recentQty recent symbol) =
        .ok (interval.low, interval.high) := by
  unfold physicalIntervalFor at h
  split at h
  · simp at h
  · next view hview =>
    dsimp only at h
    obtain ⟨rfl, hok⟩ := Prod.mk.inj h
    simp only [intervalOn, ok_iff] at hok
    obtain ⟨recent, hrecent, ⟨low, high⟩, hinterval, hfrom⟩ := hok
    unfold PhysicalExposureInterval.fromExact at hfrom
    split at hfrom
    · cases hfrom
      exact ⟨view, recent, hview, rfl, hrecent, hinterval⟩
    · cases hfrom

theorem assessPortfolio_allow {portfolio : PortfolioState} {nowNs : Nat} {v : Bool}
    (h : k.assessPortfolio b intent account portfolio nowNs = (k', .allow q v)) :
    Nonempty (Allowed b k intent account portfolio k' q v) := by
  unfold assessPortfolio at h
  split at h
  · simp at h
  · next facts hfacts =>
    split at h
    · simp at h
    · next k1 qty hev =>
      obtain ⟨e, hread, hbook, hcfg, hbranch⟩ := evaluateInventory_ok hev
      split at h
      · simp at h
      · next k2 interval hint =>
        obtain ⟨view, recent, hview, rfl, hrecent, hinterval⟩ := physicalIntervalFor_ok hint
        obtain ⟨rfl, hv⟩ := Prod.mk.inj h
        cases hv
        -- the view and the fills are read twice, with the same result
        have hsame : k1.pruneThrough account.observedNs = k1 := by
          rw [pruneThrough, hbook, Book.pruneThrough_twice, ← hbook]
        rw [hsame] at hrecent hinterval ⊢
        obtain rfl := Except.ok.inj (hread.view_eq.symm.trans hview)
        obtain rfl := Except.ok.inj (hread.recent_eq.symm.trans hrecent)
        refine ⟨⟨facts, e, interval, hfacts, hread, hbook, hcfg, hbranch, ?_, rfl⟩⟩
        rw [Evaluation.physical, hread.intent_eq]
        exact hinterval

variable (b k intent account) in
theorem assessPortfolio_kernel (nowNs : Nat) :
    (k.assessPortfolio b intent account portfolio nowNs).1 = k ∨
    ∃ facts, (k.assessPortfolio b intent account portfolio nowNs).1 =
        (k.evaluateInventory b intent account (some facts) nowNs).1 ∨
      (k.assessPortfolio b intent account portfolio nowNs).1 =
        (k.evaluateInventory b intent account (some facts) nowNs).1.pruneThrough account.observedNs := by
  have hinterval : ∀ k1 : Kernel, (k1.physicalIntervalFor b intent.symbol account).1 = k1 ∨
      (k1.physicalIntervalFor b intent.symbol account).1 = k1.pruneThrough account.observedNs := by
    intro k1
    unfold physicalIntervalFor
    split
    · exact .inl rfl
    · exact .inr rfl
  unfold assessPortfolio
  split
  · exact .inl rfl
  · next facts _ =>
    refine .inr ⟨facts, ?_⟩
    split
    · next hev => exact .inl (by rw [hev])
    · next k1 qty hev =>
      rw [hev]
      have hk1 := hinterval k1
      split
      · next hp => rwa [hp] at hk1
      · next hp => rwa [hp] at hk1

variable (b k intent account) in
theorem assessPortfolio_book (nowNs : Nat) :
    (k.assessPortfolio b intent account portfolio nowNs).1.book = k.book ∨
    (k.assessPortfolio b intent account portfolio nowNs).1.book = k.book.pruneThrough account.observedNs := by
  obtain hk | ⟨facts, hk | hk⟩ := assessPortfolio_kernel b k intent account portfolio nowNs
  · exact .inl (by rw [hk])
  · rw [hk]
    exact evaluateInventory_book b k intent account (some facts) nowNs
  · rw [hk]
    right
    rcases evaluateInventory_book b k intent account (some facts) nowNs with hbook | hbook
    · rw [pruneThrough, hbook]
    · rw [pruneThrough, hbook, Book.pruneThrough_twice]

variable (b k intent account) in
theorem assessPortfolio_keeps (nowNs : Nat) :
    (k.assessPortfolio b intent account portfolio nowNs).1.book.pending = k.book.pending ∧
    (k.assessPortfolio b intent account portfolio nowNs).1.book.px = k.book.px := by
  rcases assessPortfolio_book b k intent account portfolio nowNs with hbook | hbook
  · rw [hbook]
    exact ⟨rfl, rfl⟩
  · rw [hbook]
    exact ⟨rfl, rfl⟩

end

end Kernel

end LiquidityMigration.Risk
