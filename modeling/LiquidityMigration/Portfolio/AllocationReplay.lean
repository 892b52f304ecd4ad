import LiquidityMigration.Portfolio.CashAndCost
import LiquidityMigration.Portfolio.ForcedClose

/- A recorded allocation replays. Live, an execution is allocated, prepared and committed, and the allocation is
   written with its record; replay prepares the record again from the same books and commits that. The record has all
   it needs: nothing of the execution but its allocation differs (`terms_recorded`), and the allocation computed
   again is the recorded one (`allocationOf_recorded`). -/
namespace LiquidityMigration.Portfolio
open Numeric Checks

namespace Attribution

def recorded (execution : ExecutionRef) (allocation : ExecutionAllocation) : ExecutionRef :=
  { execution with allocation := some allocation }

section
variable {b : Binary64} {a : Attribution} {owner : Option StrategyId} {names : List String} {execution : ExecutionRef}
  {legacyStep : Option Exact} {terms : ExecutionRef.Terms} {allocation : ExecutionAllocation}
  {prepared : PreparedPortfolioFill}

theorem terms_recorded : (recorded execution allocation).terms b = execution.terms b := rfl

theorem forced_recorded : (recorded execution allocation).forced = execution.forced := rfl

theorem beyondNet_recorded : a.beyondNet b owner (recorded execution allocation) = a.beyondNet b owner execution := rfl

/-- The allocation computed again from its record is the recorded one, whatever grid the
caller offers. -/
theorem allocationOf_recorded (step : Option Exact)
    (h : a.allocationOf b owner names execution terms legacyStep = .ok allocation) :
    a.allocationOf b owner names (recorded execution allocation) terms step = .ok allocation := by
  simp only [allocationOf, ok_iff] at h
  obtain ⟨quantity, hquantity, made, hmade, -, heq⟩ := h
  have hstep : a.gridStep owner (recorded execution allocation) terms.quantity step =
      a.gridStep owner execution terms.quantity legacyStep := by
    show allocation.legacyQuantityStep = _
    rw [← heq]
  have hgrid : gridQuantity b owner (recorded execution allocation) terms.quantity
      (a.gridStep owner execution terms.quantity legacyStep) = .ok quantity := hquantity
  unfold allocationOf
  dsimp only
  rw [hstep, hgrid]
  simp only [bind, Except.bind]
  rw [show (recorded execution allocation).symbol = execution.symbol from rfl,
    show (recorded execution allocation).side = execution.side from rfl, forced_recorded, hmade]
  dsimp only
  rw [heq, require]
  simp [recorded]

/-- **The preparation of a record is the live one.** -/
theorem prepareExecutionAllocation_recorded (step : Option Exact)
    (h : a.prepareExecutionAllocation b owner names execution legacyStep = .ok (some prepared)) :
    a.prepareExecutionAllocation b owner names (recorded execution prepared.allocation) step = .ok (some prepared) := by
  have hnobody : ∀ e, charged execution e ≠ .ok (some prepared) := by
    intro e hcharged
    unfold charged at hcharged
    split at hcharged
    · cases hcharged
    · cases hcharged
  unfold prepareExecutionAllocation at h ⊢
  rw [forced_recorded, beyondNet_recorded]
  split at h
  · exact absurd h (hnobody _)
  · next howned =>
    rw [if_neg howned]
    rw [bind_eq_ok] at h ⊢
    obtain ⟨nobody, hnet, h⟩ := h
    refine ⟨nobody, hnet, ?_⟩
    split at h
    · exact absurd h (hnobody _)
    · next hcharge =>
      simp only [bind_eq_ok, map_eq_ok] at h
      obtain ⟨terms, hterms, allocation, hallocation, prepared', hslices, heq⟩ := h
      cases heq
      have hsame : prepared.allocation = allocation := by
        simp only [prepareSlices, ok_iff] at hslices
        obtain ⟨_, _, _, _, rfl⟩ := hslices
        rfl
      rw [if_neg hcharge, hsame, terms_recorded, hterms]
      simp only [bind, Except.bind, allocationOf_recorded step hallocation]
      have hprepare : a.prepareSlices b (recorded execution allocation) terms allocation = .ok prepared := hslices
      rw [hprepare]
      rfl

theorem commitPortfolioFill_ok {origins : List Origin}
    (h : a.prepareExecutionAllocation b owner names execution legacyStep = .ok (some prepared))
    (hnoted : a.notedInputs b prepared.legacyInputs = .ok origins) : (a.commitPortfolioFill b prepared).1 = .ok () := by
  obtain ⟨terms, allocation, hslices⟩ : ∃ terms allocation,
      a.prepareSlices b execution terms allocation = .ok prepared := by
    unfold prepareExecutionAllocation charged at h
    split at h
    · split at h
      · cases h
      · cases h
    · rw [bind_eq_ok] at h
      obtain ⟨nobody, -, h⟩ := h
      split at h
      · split at h
        · cases h
        · cases h
      · simp only [bind_eq_ok, map_eq_ok, Option.some.injEq] at h
        obtain ⟨terms, -, allocation, -, _, hslices, rfl⟩ := h
        exact ⟨terms, allocation, hslices⟩
  simp only [prepareSlices, ok_iff] at hslices
  obtain ⟨inventory, hinventory, accounting, haccounting, rfl⟩ := hslices
  have hprior : inventory.prior = a.inventory := by
    obtain ⟨_, _, rfl⟩ := map_eq_ok.mp hinventory
    rfl
  have hbatch : a.inventory.validateBatch inventory = .ok () := by
    rw [Inventory.validateBatch, hprior]
    exact if_pos (fun _ _ => rfl)
  have hcurrent := current_prepareBatch haccounting
  have hvalid : a.accounting.validateChange accounting = .ok () := require_eq_ok.mpr hcurrent
  unfold commitPortfolioFill commitBooks
  rw [hnoted, Inventory.applyBatch, hbatch, hvalid, ExecutionAccounting.apply_of_current hcurrent]
  rfl

/-- **Recorded allocations replay.** Wherever a live execution is given an allocation,
folding its record into the same books answers as the live commit did and leaves the same
books, all of them; and the commit goes through unless a binary64 reading cannot be
noted. -/
theorem recorded_allocation_replays (b : Binary64) (a : Attribution) (owner : Option StrategyId) (names : List String)
    (execution : ExecutionRef) (legacyStep : Option Exact) (prepared : PreparedPortfolioFill)
    (hlive : a.prepareExecutionAllocation b owner names execution legacyStep = .ok (some prepared)) :
    (∀ a', a.commitPortfolioFill b prepared = (.ok (), a') →
      a.foldRecordFill b owner names (recorded execution prepared.allocation) = (.ok true, a')) ∧
    (∀ e a', a.commitPortfolioFill b prepared = (.error e, a') →
      a.foldRecordFill b owner names (recorded execution prepared.allocation) = (.error e, a')) ∧
    ∀ origins, a.notedInputs b prepared.legacyInputs = .ok origins →
      (a.foldRecordFill b owner names (recorded execution prepared.allocation)).1 = .ok true := by
  have hfold : a.foldRecordFill b owner names (recorded execution prepared.allocation) =
      folded (a.commitPortfolioFill b prepared) := by
    unfold foldRecordFill
    rw [if_pos (show (recorded execution prepared.allocation).allocation.isSome = true from rfl),
      prepareExecutionAllocation_recorded none hlive]
  rw [hfold]
  refine ⟨fun a' h => ?_, fun e a' h => ?_, fun origins h => ?_⟩
  · rw [h]
    rfl
  · rw [h]
    rfl
  · rw [folded, commitPortfolioFill_ok hlive h]
    rfl

end

end Attribution

/-- Two sleeves short of a symbol, and a close of the venue for a part of that, kept only
as a binary64. -/
def shortBooks : Attribution := { Attribution.fresh with inventory := shortPair }

def halfClosed : ExecutionRef where
  clientOrderId := ""
  symbol := 0
  side := .buy
  qty := .finite (3 / 2)
  infinite := false
  px := .finite 10
  fee := none
  amounts := none
  allocation := none
  forcedClose := true
  engineNet := false

open Attribution in
/-- The close is allocated on a grid of halves; its record is folded as it was committed. -/
theorem recorded_allocation_replays_grid :
    ∃ prepared, shortBooks.prepareExecutionAllocation Binary64.nearestEven none ["b", "a"] halfClosed (some (1 / 2)) =
        .ok (some prepared) ∧ prepared.allocation.legacyQuantityStep = some (1 / 2) ∧
      ∀ a', shortBooks.commitPortfolioFill Binary64.nearestEven prepared = (.ok (), a') →
        shortBooks.foldRecordFill Binary64.nearestEven none ["b", "a"] (recorded halfClosed prepared.allocation) =
          (.ok true, a') := by
  have hstep : ((shortBooks.prepareExecutionAllocation Binary64.nearestEven none ["b", "a"] halfClosed
      (some (1 / 2))).toOption.join.map (fun prepared => prepared.allocation.legacyQuantityStep)) =
        some (some (1 / 2)) := by
    decide +kernel
  cases hprepared : shortBooks.prepareExecutionAllocation Binary64.nearestEven none ["b", "a"] halfClosed
      (some (1 / 2)) with
  | error e =>
    rw [hprepared] at hstep
    cases hstep
  | ok found =>
    cases found with
    | none =>
      rw [hprepared] at hstep
      cases hstep
    | some prepared =>
      rw [hprepared] at hstep
      refine ⟨prepared, rfl, Option.some.inj hstep, ?_⟩
      exact (recorded_allocation_replays Binary64.nearestEven shortBooks none ["b", "a"] halfClosed (some (1 / 2))
        prepared hprepared).1

end LiquidityMigration.Portfolio
