import LiquidityMigration.Risk.Book

/- The capital side of the kernel: the configured limits, the reference that follows
   the account's equity, and the charges made against it.

   A configuration is checked once, when the kernel is built; what the checks give
   is carried by the configuration, so no later division is by zero. -/
namespace LiquidityMigration.Risk
open Numeric Portfolio Checks RowSums AddMonoidHom
open Std (ExtTreeMap)

/-- `EnvelopeConfig`, as `validate` lets it through. -/
structure EnvelopeConfig where
  /-- False pins the reference at `referenceUsdt` forever. -/
  tracksEquity : Bool
  (referenceUsdt equityFraction expandDeadBandFraction grossNotionalMultiple disasterStopFraction : ℚ)
  (maxComponentGrossNotionalUsdt maxSymbolNotionalUsdt maxInitialMarginUsdt : ℚ)
  reference_pos : 0 < referenceUsdt
  multiple_pos : 0 < grossNotionalMultiple
  equity_fraction : 0 < equityFraction ∧ equityFraction ≤ 1
  dead_band : 0 ≤ expandDeadBandFraction
  disaster_stop : 0 < disasterStopFraction ∧ disasterStopFraction < 1
  caps_pos : 0 < maxComponentGrossNotionalUsdt ∧ 0 < maxSymbolNotionalUsdt ∧ 0 < maxInitialMarginUsdt
  margin_le : maxInitialMarginUsdt ≤ referenceUsdt

/-- `KernelConfig`, as `validate` lets it through. -/
structure KernelConfig where
  maxAccountViewAgeNs : Nat
  envelope : EnvelopeConfig
  (leverage qtyTolerance maxRollingLossFraction : ℚ)
  leverage_pos : 0 < leverage
  tolerance_nonneg : 0 ≤ qtyTolerance
  loss_fraction : 0 < maxRollingLossFraction ∧ maxRollingLossFraction ≤ 1

structure Envelope where
  tracksEquity : Bool
  (configuredReferenceUsdt grossNotionalMultiple disasterStopFraction equityFraction expansionMultiple : Exact)
  referenceUsdt : Exact
  configured_pos : 0 < configuredReferenceUsdt

namespace Envelope

def new (b : Binary64) (cfg : EnvelopeConfig) : Envelope where
  tracksEquity := cfg.tracksEquity
  configuredReferenceUsdt := b.policy cfg.referenceUsdt
  grossNotionalMultiple := b.policy cfg.grossNotionalMultiple
  disasterStopFraction := b.policy cfg.disasterStopFraction
  equityFraction := b.policy cfg.equityFraction
  expansionMultiple := 1 + b.policy cfg.expandDeadBandFraction
  referenceUsdt := b.policy cfg.referenceUsdt
  configured_pos := b.policy_pos cfg.reference_pos

variable (env : Envelope)

/-- How far the reference has moved from the configured one. -/
def scale : Exact := env.referenceUsdt / env.configuredReferenceUsdt

def allowanceUsdt : Exact :=
  env.referenceUsdt * env.grossNotionalMultiple * env.disasterStopFraction

/-- `close_enough`, with the tolerances as the decimals they are written as. -/
def closeEnough (x y : Exact) : Prop := |x - y| ≤ max (1 / 10 ^ 12 * max |x| |y|) (1 / 10 ^ 9)
  deriving Decidable

/-- `Envelope::observe_equity_with_permission`: down at once, up only where that is allowed and
the move leaves the dead band. -/
def observeEquity (equity : Exact) (allowExpansion : Bool) : Envelope :=
  if ¬ env.tracksEquity ∨ ¬ 0 < equity then env
  else
    let target := equity * env.equityFraction
    if closeEnough target env.referenceUsdt then env
    else if env.referenceUsdt ≤ target ∧
        (¬ allowExpansion ∨ target ≤ env.referenceUsdt * env.expansionMultiple) then env
    else { env with referenceUsdt := target }

/-- What a position loses at its stop, or at the disaster
stop where that is wider. -/
def modelledStopChargeUsdt (notional stop : Exact) : Exact :=
  notional * max stop env.disasterStopFraction

instance transCmp_exact : Std.TransCmp (compare : Exact → Exact → Ordering) := inferInstance

/-- The gross notional of the rows and their stop charge. -/
def pendingTotals (rows : List (Exact × Exact)) : Exact × Exact :=
  let byFraction := (group compare (rows.map (fun row => (max row.2 env.disasterStopFraction, row.1)))).toList
  ((byFraction.map (fun row => row.2)).sum, (byFraction.map (fun row => row.2 * row.1)).sum)

theorem pendingTotals_eq (rows : List (Exact × Exact)) : env.pendingTotals rows =
    ((rows.map Prod.fst).sum, (rows.map (fun row => env.modelledStopChargeUsdt row.1 row.2)).sum) := by
  have hgross := totalOver_group compare (fun _ : Exact => id Exact)
    (rows.map (fun row => (max row.2 env.disasterStopFraction, row.1)))
  have hloss := totalOver_group compare (fun fraction : Exact => mulRight fraction)
    (rows.map (fun row => (max row.2 env.disasterStopFraction, row.1)))
  simp only [totalOver, List.map_map] at hgross hloss
  exact Prod.ext hgross hloss

/-- What one pending order adds to the gross notional and to the stop charge. -/
def rowRisk (price : SymbolId → Option Exact) (p : Pending) : Except String (Exact × Exact) :=
  (Book.riskPart price p).map (fun part => part.elim 0 (fun part =>
    (part.2 * (ofLex part.1).1, env.modelledStopChargeUsdt (part.2 * (ofLex part.1).1) (ofLex part.1).2)))

theorem pendingTotals_group (parts : List ((Exact ×ₗ Exact) × Exact)) :
    env.pendingTotals ((group compare parts).toList.map (fun row => (row.2 * (ofLex row.1).1, (ofLex row.1).2)))
      = (parts.map (fun part => (part.2 * (ofLex part.1).1,
          env.modelledStopChargeUsdt (part.2 * (ofLex part.1).1) (ofLex part.1).2))).sum := by
  have hgross := totalOver_group compare (fun key : Exact ×ₗ Exact => mulRight (ofLex key).1) parts
  have hloss := totalOver_group compare (fun key : Exact ×ₗ Exact => (mulRight (max (ofLex key).2
    env.disasterStopFraction)).comp (mulRight (ofLex key).1)) parts
  rw [pendingTotals_eq, List.map_map, List.map_map]
  exact (Prod.ext hgross hloss).trans (sum_map_prod _ _ parts).symm

theorem pendingTotals_riskRows (book : Book) (price : SymbolId → Option Exact) :
    (book.pendingRiskRows price).map env.pendingTotals = sumOk (env.rowRisk price) book.rows := by
  have hcollect := map_sum_collect (Book.riskPart price) (fun part => (part.2 * (ofLex part.1).1,
    env.modelledStopChargeUsdt (part.2 * (ofLex part.1).1) (ofLex part.1).2)) book.rows
  refine Eq.trans ?_ hcollect
  rw [Book.pendingRiskRows]
  cases collect (Book.riskPart price) book.rows with
  | error e => rfl
  | ok parts => exact congrArg Except.ok (pendingTotals_group env parts)

end Envelope

end LiquidityMigration.Risk
