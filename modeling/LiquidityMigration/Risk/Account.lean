import LiquidityMigration.Lib.RowSums
import LiquidityMigration.Risk.Order

/- What the kernel judges against: the account as the venue reported it, and the
   sleeves' portfolio. Both are read into facts before anything is decided. A view
   or a portfolio that contradicts itself is refused whole, so that no decision is
   made on a part of it. -/
namespace LiquidityMigration.Risk
open Numeric Portfolio Checks

/-- Why an intent was refused, with the numbers as they are reported. -/
inductive DenyReason where
  | envelopeBreached (modelledStopChargeUsdt allowanceUsdt : ℚ)
  | componentGrossBreached (grossUsdt capUsdt : ℚ)
  | initialMarginBreached (marginUsdt capUsdt : ℚ)
  | availableMarginExhausted (additionalMarginUsdt availableUsdt : ℚ)
  | rollingLossTripped (windowNetUsdt limitUsdt : ℚ) (windowMs : Int)
  | missingStop
  | staleAccountView (ageNs maxAgeNs : Nat)
  | unknownState (detail : String)
  | symbolNotionalBreached (symbol : SymbolId) (notionalUsdt capUsdt : ℚ)
  deriving DecidableEq

/-- Anything the kernel cannot positively classify. -/
def unknown (detail : String) : DenyReason := .unknownState detail

def unreadable (e : ExactError) : DenyReason := unknown e.toString

structure PositionAmounts where
  (liquidationPrice markPrice : Option ExactNumber)
  (quantity entryPrice : ExactNumber)
  deriving DecidableEq

structure AccountAmounts where
  (initialMarginRate maintenanceMarginRate : Option ExactNumber)
  (equityUsdt availableUsdt : ExactNumber)
  deriving DecidableEq

/-- One open position as the risk kernel sees it. -/
structure PositionView where
  exactAmounts : Option PositionAmounts
  symbol : SymbolId
  side : Side
  (qty entryPx : F64)
  stopAttached : Bool
  stopPx : F64
  exactStopPx : Option Exact
  deriving DecidableEq

structure AccountView where
  exactAmounts : Option AccountAmounts
  (equityUsdt availableUsdt : F64)
  positions : List PositionView
  /-- Monotonic start of the earliest request composing this view. -/
  observedNs : Nat
  deriving DecidableEq

namespace PositionView
variable (b : Binary64) (position : PositionView)

def quantity : Except ExactError Exact :=
  b.canonical (position.exactAmounts.map PositionAmounts.quantity) position.qty

def entryPrice : Except ExactError Exact :=
  b.canonical (position.exactAmounts.map PositionAmounts.entryPrice) position.entryPx

def validateStopProjection : Except ExactError Unit :=
  match position.exactStopPx with
  | none => .ok ()
  | some exact => do
    validateStorage exact
    require (position.stopAttached ∧ 0 < exact) .invalidProjection
    b.projectsTo exact position.stopPx

def stopPrice : Except ExactError Exact := do
  position.validateStopProjection b
  match position.exactStopPx with
  | some exact => .ok exact
  | none => fromLegacyF64 position.stopPx

end PositionView

namespace AccountView
variable (b : Binary64) (account : AccountView)

def equity : Except ExactError Exact :=
  b.canonical (account.exactAmounts.map AccountAmounts.equityUsdt) account.equityUsdt

def available : Except ExactError Exact :=
  b.canonical (account.exactAmounts.map AccountAmounts.availableUsdt) account.availableUsdt

end AccountView

/-- A metric of the venue, which is never negative. -/
def optionalNumber (number : Option ExactNumber) : Except DenyReason (Option Exact) :=
  match number with
  | none => .ok none
  | some number => do
    number.validateProvenance.mapError unreadable
    (validateStorage number.value).mapError unreadable
    require (0 ≤ number.value) (unknown "negative venue margin or price metric")
    .ok (some number.value)

/-- What one position has gained or lost at its mark; nothing where it has none. -/
def positionPnl (b : Binary64) (position : PositionView) : Except DenyReason Exact := do
  match ← optionalNumber (position.exactAmounts.bind PositionAmounts.markPrice) with
  | none => .ok 0
  | some mark =>
    let entry ← (position.entryPrice b).mapError unreadable
    let quantity ← (position.quantity b).mapError unreadable
    .ok ((mark - entry) * signed position.side quantity)

def accountOpenPnl (b : Binary64) (account : AccountView) : Except DenyReason Exact :=
  RowSums.sumOk (positionPnl b) account.positions

/-- `ViewFacts`. The entry prices are positive, as `read` checks. -/
structure ViewFacts where
  observedNs : Nat
  (equityUsdt availableUsdt : Exact)
  (net entryPx : List (SymbolId × Exact))
  stops : List (SymbolId × Side × Exact × Exact)
  unprotected : Bool
  entry_pos : ∀ row ∈ entryPx, 0 < row.2

namespace ViewFacts

/-- The running net of the symbol with one position more; both sides of one symbol are refused. -/
def addNet (symbol : SymbolId) (qty : Exact) : List (SymbolId × Exact) → Except DenyReason (List (SymbolId × Exact))
  | [] => .ok [(symbol, qty)]
  | (held, running) :: rest =>
    if held = symbol then do
      require (running < 0 ↔ qty < 0) (unknown "account view holds both sides of one symbol")
      .ok ((held, running + qty) :: rest)
    else (addNet symbol qty rest).map ((held, running) :: ·)

/-- The stop of one position: its row, or `none` where none is attached. -/
def readStopRow (b : Binary64) (position : PositionView) (entry : Exact) :
    Except DenyReason (Option (SymbolId × Side × Exact × Exact)) :=
  if position.stopAttached then do
    let stop ← (position.stopPrice b).mapError fun _ => unknown "attached position stop has no positive price"
    require (0 < stop) (unknown "attached position stop has no positive price")
    .ok (some (position.symbol, position.side, entry, stop))
  else .ok none

/-- One position's turn in the loop of `ViewFacts::read`. -/
def addPosition (b : Binary64) (tolerance : Exact) (facts : ViewFacts) (position : PositionView) :
    Except DenyReason ViewFacts := do
  (position.validateStopProjection b).mapError
    fun _ => unknown "native stop disagrees with its compatibility projection"
  let qty ← (position.quantity b).mapError fun _ => unknown "position quantity is not a readable size"
  require (0 ≤ qty) (unknown "position quantity is not a readable size")
  if qty ≤ tolerance then .ok facts
  else
    let entry ← (position.entryPrice b).mapError fun _ => unknown "position entry price is not a positive number"
    if hentry : 0 < entry then
      let net ← addNet position.symbol (signed position.side qty) facts.net
      let stop ← readStopRow b position entry
      -- the first position of a symbol gives the symbol's entry price
      .ok { facts with
        net := net
        entryPx := if facts.entryPx.any (fun row => row.1 = position.symbol) then facts.entryPx
          else facts.entryPx ++ [(position.symbol, entry)]
        stops := facts.stops ++ stop.toList
        unprotected := facts.unprotected || !position.stopAttached
        entry_pos := by
          intro row hrow
          split at hrow
          · exact facts.entry_pos row hrow
          · rcases List.mem_append.mp hrow with h | h
            · exact facts.entry_pos row h
            · rw [List.mem_singleton.mp h]
              exact hentry }
    else .error (unknown "position entry price is not a positive number")

def read (b : Binary64) (account : AccountView) (tolerance : Exact) : Except DenyReason ViewFacts := do
  let equity ← (account.equity b).mapError
    fun _ => unknown "account equity is not a number or disagrees with its projection"
  require (0 < equity) (unknown "account equity is not positive")
  let available ← (account.available b).mapError
    fun _ => unknown "available margin is not a number or disagrees with its projection"
  account.positions.foldlM (addPosition b tolerance)
    ⟨account.observedNs, equity, available, [], [], [], false, fun _ h => by cases h⟩

def netQty (view : ViewFacts) (symbol : SymbolId) : Exact :=
  ((view.net.find? (fun row => row.1 = symbol)).map Prod.snd).getD 0

def entryPrice (view : ViewFacts) (symbol : SymbolId) : Option Exact :=
  (view.entryPx.find? (fun row => row.1 = symbol)).map Prod.snd

theorem entryPrice_pos {view : ViewFacts} {symbol : SymbolId} {px : Exact}
    (h : view.entryPrice symbol = some px) : 0 < px := by
  obtain ⟨row, hrow, rfl⟩ := Option.map_eq_some_iff.mp h
  exact view.entry_pos row (List.mem_of_find?_eq_some hrow)

end ViewFacts

structure PortfolioState where
  schemaVersion : Nat
  positions : List PortfolioPosition
  deriving DecidableEq

structure Held where
  strategy : StrategyId
  symbol : SymbolId
  qty : Exact
  (entryPx stopPx : Option Exact)
  deriving DecidableEq

/-- A cost or a stop of a portfolio row: storable and positive where it is there. -/
def readPositive (what : String) (value : Option Exact) : Except DenyReason (Option Exact) :=
  match value with
  | none => .ok none
  | some x => do
    (validateStorage x).mapError unreadable
    require (0 < x) (unknown what)
    .ok (some x)

/-- One row's turn in the loop of `PortfolioFacts::read`. -/
def Held.read (row : PortfolioPosition) : Except DenyReason Held := do
  (validateStorage row.signedQty).mapError unreadable
  require (row.signedQty ≠ 0) (unknown "portfolio position has zero quantity")
  let cost ← readPositive "portfolio cost is not positive" row.entryValue
  let stopPx ← readPositive "portfolio stop is not positive" row.stopPx
  -- the quantity is not zero, so the division goes through
  .ok ⟨row.strategy, row.symbol, row.signedQty, cost.map (· / |row.signedQty|), stopPx⟩

/-- The rows in order, each read once; a sleeve and symbol seen before is refused. -/
def Held.readRows (seen : List PositionKey) : List PortfolioPosition → Except DenyReason (List Held)
  | [] => .ok []
  | row :: rest => do
    require (row.key ∉ seen) (unknown "duplicate portfolio position")
    let held ← Held.read row
    let others ← Held.readRows (row.key :: seen) rest
    .ok (held :: others)

structure PortfolioFacts where
  positions : List Held

namespace PortfolioFacts

def read (state : PortfolioState) : Except DenyReason PortfolioFacts := do
  require (state.schemaVersion = 1 ∨ state.schemaVersion = 2) (unknown "unsupported portfolio schema")
  let positions ← Held.readRows [] state.positions
  .ok ⟨positions⟩

variable (portfolio : PortfolioFacts)

def net : Std.ExtTreeMap SymbolId Exact :=
  RowSums.group compare (portfolio.positions.map (fun row => (row.symbol, row.qty)))

/-- The sleeves' quantities and what of the physical
position no sleeve owns. -/
def symbolGrossQuantity (symbol : SymbolId) (physical : Exact) : Exact :=
  ((portfolio.positions.filter (fun row => row.symbol = symbol)).map (fun row => |row.qty|)).sum
    + |physical - portfolio.net[symbol]?.getD 0|

def owned (strategy : StrategyId) (symbol : SymbolId) : Exact :=
  ((portfolio.positions.find? (fun row => row.strategy = strategy ∧ row.symbol = symbol)).map Held.qty).getD 0

end PortfolioFacts

def PortfolioState.owned (state : PortfolioState) (strategy : StrategyId) (symbol : SymbolId) : Exact :=
  ((state.positions.find? (fun row => row.strategy = strategy ∧ row.symbol = symbol)).map
    PortfolioPosition.signedQty).getD 0

theorem Held.read_ok {row : PortfolioPosition} {held : Held} (h : Held.read row = .ok held) :
    held.strategy = row.strategy ∧ held.symbol = row.symbol ∧ held.qty = row.signedQty := by
  simp only [Held.read, ok_iff] at h
  obtain ⟨-, -, -, -, cost, -, stopPx, -, rfl⟩ := h
  exact ⟨rfl, rfl, rfl⟩

theorem PortfolioFacts.owned_read {state : PortfolioState} {facts : PortfolioFacts}
    (h : PortfolioFacts.read state = .ok facts) (strategy : StrategyId) (symbol : SymbolId) :
    facts.owned strategy symbol = state.owned strategy symbol := by
  simp only [PortfolioFacts.read, bind_eq_ok, Except.ok.injEq] at h
  obtain ⟨-, -, positions, hrows, rfl⟩ := h
  have hfind : ∀ (rows : List PortfolioPosition) (seen : List PositionKey) (helds : List Held),
      Held.readRows seen rows = .ok helds →
      (helds.find? (fun row => row.strategy = strategy ∧ row.symbol = symbol)).map Held.qty =
      (rows.find? (fun row => row.strategy = strategy ∧ row.symbol = symbol)).map PortfolioPosition.signedQty := by
    intro rows
    induction rows with
    | nil =>
      intro seen helds h
      cases h
      rfl
    | cons row rest ih =>
      intro seen helds h
      simp only [Held.readRows, bind_eq_ok, Except.ok.injEq] at h
      obtain ⟨-, -, held, hheld, others, hothers, rfl⟩ := h
      obtain ⟨hs, hy, hq⟩ := Held.read_ok hheld
      rw [List.find?_cons, List.find?_cons, hs, hy]
      split
      · rw [Option.map_some, Option.map_some, hq]
      · exact ih _ _ hothers
  rw [PortfolioFacts.owned, PortfolioState.owned, hfind _ _ _ hrows]

end LiquidityMigration.Risk
