import LiquidityMigration.Numeric.Binary64
import LiquidityMigration.Portfolio.Inventory

/- What a strategy asks for. An intent carries its quantity and its prices twice:
   as binary64, and exactly where they are known exactly. Reading one of them gives
   the exact value, or refuses where the two disagree. -/
namespace LiquidityMigration.Risk
open Numeric Portfolio Checks

inductive OrderKind where
  | market
  | limit (px : F64)
  deriving DecidableEq

structure IntentPrices where
  (limitPrice stopTriggerPrice : Option Exact)
  deriving DecidableEq

structure Intent where
  strategy : StrategyId
  symbol : SymbolId
  side : Side
  qty : F64
  exactQuantity : Option Exact
  exactPrices : Option IntentPrices
  kind : OrderKind
  stop : Option F64
  /-- True for exits: the order may only reduce an existing position. -/
  reduceOnly : Bool
  deriving DecidableEq

def signed (side : Side) (qty : Exact) : Exact :=
  match side with
  | .buy => qty
  | .sell => -qty

@[simp] theorem abs_signed (side : Side) (qty : Exact) : |signed side qty| = |qty| := by
  cases side <;> simp [signed]

namespace Intent
variable (b : Binary64) (intent : Intent)

/-- A price that is there has to be positive. -/
def price (exact : Option Exact) (projection : Option F64) : Except ExactError (Option Exact) :=
  match projection with
  | none => if exact.isSome then .error .invalidProjection else .ok none
  | some projection => do
    let value ← b.exactOrText exact projection
    require (0 < value) .invalidProjection
    .ok (some value)

def limitPrice : Except ExactError (Option Exact) :=
  price b (intent.exactPrices.bind IntentPrices.limitPrice)
    (match intent.kind with | .limit px => some px | .market => none)

def stopPrice : Except ExactError (Option Exact) :=
  price b (intent.exactPrices.bind IntentPrices.stopTriggerPrice) intent.stop

def validatePriceProjection : Except ExactError Unit := do
  let _ ← intent.limitPrice b
  let _ ← intent.stopPrice b
  .ok ()

def quantity : Except ExactError Exact :=
  match intent.qty with
  | .nonFinite => .error .nonFinite
  | .finite qty => do
    require (0 < qty) .invalidProjection
    match intent.exactQuantity with
    | some x => do
      validateStorage x
      require (0 < x) .invalidProjection
      b.projectsTo x intent.qty
      .ok x
    | none => b.ofText intent.qty

variable {b intent}

theorem price_pos {exact : Option Exact} {projection : Option F64} {x : Exact}
    (h : price b exact projection = .ok (some x)) : 0 < x := by
  unfold price at h
  split at h
  · split at h <;> simp at h
  · simp only [bind_eq_ok, require_eq_ok, Except.ok.injEq, Option.some.injEq] at h
    obtain ⟨value, -, -, hpos, rfl⟩ := h
    exact hpos

theorem limitPrice_pos {x : Exact} (h : intent.limitPrice b = .ok (some x)) : 0 < x := price_pos h

theorem stopPrice_pos {x : Exact} (h : intent.stopPrice b = .ok (some x)) : 0 < x := price_pos h

theorem quantity_pos {x : Exact} (h : intent.quantity b = .ok x) : 0 < x := by
  unfold quantity at h
  split at h
  · cases h
  · next qty hq =>
    simp only [bind_eq_ok, require_eq_ok] at h
    obtain ⟨-, hpos, h⟩ := h
    split at h
    · simp only [bind_eq_ok, require_eq_ok, Except.ok.injEq] at h
      obtain ⟨-, -, -, hx, -, -, rfl⟩ := h
      exact hx
    · rw [hq] at h
      simp only [Binary64.ofText, Except.ok.injEq] at h
      rw [← h]
      exact b.shown_pos qty hpos

end Intent

end LiquidityMigration.Risk
