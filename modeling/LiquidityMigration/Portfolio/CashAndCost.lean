import LiquidityMigration.Numeric.Ieee
import LiquidityMigration.Portfolio.Attribution
import LiquidityMigration.Portfolio.ProfitAndLoss

/- The two ledgers of a sleeve agree: the inventory keeps the prorated cost of what is held, the accounting the raw
   cash and what was realized. What a fill realizes is its cash and the change of the cost carried
   (`Lot.trade_realized`), so the cash of a sleeve in its one asset is what it realized less what it carries
   (`InStep.take`, `cash_and_cost_agree`). -/
namespace LiquidityMigration.Portfolio
open Numeric Checks AverageCost Attribution ExecutionAccountingInput List

/-- A fill of a sleeve as the books take it: with its fee, and with the binary64 reading it
adds to the sleeve's sum where the venue stated no exact amounts. -/
structure Booking where
  fill : InventoryFill
  fee : Option AssetAmount
  legacyInput : Option Exact

namespace Booking

def statedFee (x : Booking) (asset : String) : Exact :=
  match x.fee with
  | some fee => if fee.asset = .named asset then fee.amount.value else 0
  | none => 0

/-- A priced execution in an asset, its amounts exact. -/
structure PricedIn (asset : String) (x : Booking) : Prop where
  px : x.fill.px ≠ none
  asset : x.fill.settlementAsset = .named asset
  exact : x.legacyInput = none

end Booking

def Attribution.book (b : Binary64) (a : Attribution) (x : Booking) : Except String Attribution :=
  a.take b x.fill x.fee x.legacyInput

section
variable {b : Binary64} {a a' : Attribution} {x : Booking} {key : PositionKey} {asset : String}

theorem ownerOf_inj {key key' : PositionKey} : ownerOf key = ownerOf key' ↔ key = key' := by
  rw [ownerOf, ownerOf, sleeveKey, sleeveKey, toLex_inj]

variable (a key) in
theorem settleInput_accounting (origin : Option Origin) :
    (a.settleInput b key origin).accounting = a.accounting := by
  cases origin with
  | none =>
    unfold settleInput
    dsimp only
    split
    · rfl
    · rfl
  | some origin => rfl

theorem position_settleInput (a : Attribution) {key other : PositionKey} (origin : Option Origin)
    (hne : other ≠ key) : (a.settleInput b key origin).inventory.position other = a.inventory.position other := by
  cases origin with
  | none =>
    unfold settleInput
    dsimp only
    split
    · rfl
    · rfl
  | some origin =>
    unfold settleInput settleLegacySum
    dsimp only
    split
    · exact AList.lookup_erase_ne hne
    · rfl

variable (a key) in
theorem settleInput_none_inventory :
    (a.settleInput b key none).inventory = a.inventory := by
  unfold settleInput
  dsimp only
  split
  · rfl
  · rfl

theorem row_book {realized : RealizedValue} {accounting : ExecutionAccounting}
    (h : a.accounting.record (accountingInput x.fill x.fee realized) = .ok accounting) (key : PositionKey)
    (name : AssetId) :
    accounting.row (ownerOf key) name = if key = x.fill.key then
        (a.accounting.row (ownerOf key) name).post ((accountingInput x.fill x.fee realized).cashIn name)
          ((accountingInput x.fill x.fee realized).feeIn name) ((accountingInput x.fill x.fee realized).realizedIn name)
      else a.accounting.row (ownerOf key) name := by
  rw [ExecutionAccounting.row_record h]
  simp only [show (accountingInput x.fill x.fee realized).owner = ownerOf x.fill.key from rfl, ownerOf_inj]

theorem feeIn_accountingInput (realized : RealizedValue) :
    (accountingInput x.fill x.fee realized).feeIn (.named asset) = x.statedFee asset := by
  unfold feeIn feeAsset Booking.statedFee accountingInput
  cases x.fee with
  | none => rfl
  | some fee =>
    obtain ⟨name, amount⟩ := fee
    cases name with
    | named name => rfl
    | unknown => rfl

theorem cashIn_accountingInput {px : Exact} (realized : RealizedValue) (hpx : x.fill.px = some px)
    (hasset : x.fill.settlementAsset = .named asset) :
    (accountingInput x.fill x.fee realized).cashIn (.named asset) = -(x.fill.delta * px) := by
  unfold cashIn accountingInput
  dsimp only
  rw [hpx, hasset, Option.map_some, amountIn_self, ExecutionAccounting.cashOf, InventoryFill.delta]
  cases x.fill.side with
  | buy => simp
  | sell => simp

variable (key asset) in
/-- The cash of a sleeve in its asset is what it realized less what it carries: the row is
held in that asset at a known cost. -/
structure InStep (a : Attribution) : Prop where
  lot : ∃ l, lotOf (a.inventory.position key) = some l
  asset_eq : ∀ row, a.inventory.position key = some row → row.settlementAsset = .named asset
  cash : (a.accounting.row (ownerOf key) (.named asset)).executionCashFlow =
    (a.accounting.row (ownerOf key) (.named asset)).realizedGross - carried (a.inventory.position key)

theorem book_elsewhere (hkey : key ≠ x.fill.key) (h : a.book b x = .ok a') :
    a'.inventory.position key = a.inventory.position key ∧
      ∀ name, a'.accounting.row (ownerOf key) name = a.accounting.row (ownerOf key) name := by
  obtain ⟨realized, inventory, accounting, origin, hfill, hrecord, -, rfl⟩ := take_ok h
  refine ⟨?_, fun name => ?_⟩
  · obtain ⟨row, -, -, hothers⟩ := Inventory.fill_ok hfill
    rw [position_settleInput _ _ hkey]
    exact hothers key hkey
  · rw [settleInput_accounting, row_book hrecord, if_neg hkey]

/-- **A booking of the sleeve** trades its lot: the position and the realized amount are
those of the trade, and the cash is the trade's. -/
theorem InStep.book_own (hs : InStep key asset a) (hkey : x.fill.key = key) (hx : x.PricedIn asset)
    (h : a.book b x = .ok a') : InStep key asset a' := by
  subst hkey
  obtain ⟨realized, inventory, accounting, origin, hfill, hrecord, hnoted, rfl⟩ := take_ok h
  rw [hx.exact] at hnoted
  cases hnoted
  obtain ⟨px, hpx⟩ := Option.ne_none_iff_exists'.mp hx.px
  obtain ⟨l, hl⟩ := hs.lot
  obtain ⟨row, hcheck, hrow, -⟩ := Inventory.fill_ok hfill
  obtain ⟨hpos, -, hnext, -⟩ := checkFill_ok.mp hcheck
  have hvalid : ∀ row, a.inventory.position x.fill.key = some row → row.Valid :=
    fun row hr => (a.inventory.rows_ok x.fill.key row hr).2
  have hsame : ∀ row, a.inventory.position x.fill.key = some row → row.settlementAsset = x.fill.settlementAsset :=
    fun row hr => (hs.asset_eq row hr).trans hx.asset.symm
  obtain ⟨hlot, hamount, hrasset, hrows⟩ := nextPosition_lot hl hvalid hpos.qty (hpos.px px hpx) hpx hsame hnext
  have hinventory : ({ a with inventory := inventory, accounting := accounting }.settleInput b x.fill.key none
      ).inventory.position x.fill.key = row := by
    rw [settleInput_none_inventory]
    exact hrow
  have hrealized : (accountingInput x.fill x.fee realized).realizedIn (.named asset) = (l.trade x.fill.delta px).2 := by
    have hvalue : realized = ⟨some (l.trade x.fill.delta px).2, .named asset⟩ := by
      rw [← hx.asset, ← hrasset, ← hamount]
    rw [hvalue]
    exact amountIn_self
  refine ⟨⟨_, by rw [hinventory]; exact hlot⟩, fun row' hrow' => ?_, ?_⟩
  · rw [hinventory] at hrow'
    rw [hrows row' hrow', hx.asset]
  · rw [hinventory, settleInput_accounting, row_book hrecord, if_pos rfl, (carried_eq hlot).1]
    have hbefore := hs.cash
    rw [(carried_eq hl).1] at hbefore
    have htrade := Lot.trade_realized (l := l) (p := px) (delta_ne_zero hpos.qty)
    simp only [AssetExecutionTotals.post, hrealized, cashIn_accountingInput realized hpx hx.asset, hbefore]
    linarith

theorem InStep.book (hs : InStep key asset a) (hx : x.fill.key = key → x.PricedIn asset)
    (h : a.book b x = .ok a') : InStep key asset a' := by
  by_cases hkey : x.fill.key = key
  · exact hs.book_own hkey (hx hkey) h
  · obtain ⟨hposition, hrow⟩ := book_elsewhere (Ne.symm hkey) h
    refine ⟨?_, ?_, ?_⟩
    · rw [hposition]
      exact hs.lot
    · rw [hposition]
      exact hs.asset_eq
    · rw [hposition, hrow]
      exact hs.cash

theorem fees_book (h : a.book b x = .ok a') (key : PositionKey) (asset : String) :
    (a'.accounting.row (ownerOf key) (.named asset)).fees =
      (a.accounting.row (ownerOf key) (.named asset)).fees + if x.fill.key = key then x.statedFee asset else 0 := by
  by_cases hkey : x.fill.key = key
  · subst hkey
    obtain ⟨realized, inventory, accounting, origin, -, hrecord, -, rfl⟩ := take_ok h
    rw [settleInput_accounting, row_book hrecord, if_pos rfl, if_pos rfl]
    simp only [AssetExecutionTotals.post, feeIn_accountingInput]
  · rw [(book_elsewhere (Ne.symm hkey) h).2, if_neg hkey, add_zero]

theorem InStep.run {bookings : List Booking} (hs : InStep key asset a)
    (hx : ∀ x ∈ bookings, x.fill.key = key → x.PricedIn asset)
    (h : bookings.foldlM (Attribution.book b) a = .ok a') : InStep key asset a' := by
  induction bookings generalizing a with
  | nil =>
    cases h
    exact hs
  | cons x rest ih =>
    rw [foldlM_cons, bind_eq_ok] at h
    obtain ⟨mid, hmid, hrest⟩ := h
    rw [forall_mem_cons] at hx
    exact ih (hs.book hx.1 hmid) hx.2 hrest

theorem fees_run {bookings : List Booking} (h : bookings.foldlM (Attribution.book b) a = .ok a')
    (key : PositionKey) (asset : String) :
    (a'.accounting.row (ownerOf key) (.named asset)).fees = (a.accounting.row (ownerOf key) (.named asset)).fees +
        ((bookings.filter (fun x => x.fill.key = key)).map (fun x => x.statedFee asset)).sum := by
  induction bookings generalizing a with
  | nil =>
    cases h
    simp
  | cons x rest ih =>
    rw [foldlM_cons, bind_eq_ok] at h
    obtain ⟨mid, hmid, hrest⟩ := h
    rw [ih hrest, fees_book hmid, filter_cons]
    by_cases hkey : x.fill.key = key
    · simp only [hkey, decide_true, if_true, map_cons, sum_cons]
      ring
    · simp only [hkey, decide_false, if_false, Bool.false_eq_true, add_zero]

/-- **Cash and cost agree.** A sleeve starts a symbol flat, with as much cash accounted as realized, and
takes priced fills in one named asset; the others take anything. Then its cash is what it realized less
its signed entry value, its fees have grown by exactly what its fills state, and once it is flat its
cash is what it realized. -/
theorem cash_and_cost_agree (b : Binary64) (a a' : Attribution) (bookings : List Booking)
    (key : PositionKey) (asset : String) (hflat : a.inventory.position key = none)
    (hstart : (a.accounting.row (ownerOf key) (.named asset)).executionCashFlow =
      (a.accounting.row (ownerOf key) (.named asset)).realizedGross)
    (hpriced : ∀ x ∈ bookings, x.fill.key = key → x.PricedIn asset)
    (hrun : bookings.foldlM (Attribution.book b) a = .ok a') :
    (∀ row, a'.inventory.position key = some row → ∃ cost, row.entryValue = some cost ∧
      (a'.accounting.row (ownerOf key) (.named asset)).executionCashFlow =
        (a'.accounting.row (ownerOf key) (.named asset)).realizedGross - signum row.signedQty * cost) ∧
    (a'.inventory.position key = none → (a'.accounting.row (ownerOf key) (.named asset)).executionCashFlow =
      (a'.accounting.row (ownerOf key) (.named asset)).realizedGross) ∧
    ∀ feeAsset : String, (a'.accounting.row (ownerOf key) (.named feeAsset)).fees =
      (a.accounting.row (ownerOf key) (.named feeAsset)).fees +
        ((bookings.filter (fun x => x.fill.key = key)).map (fun x => x.statedFee feeAsset)).sum := by
  have hbegin : InStep key asset a := by
    refine ⟨⟨.flat, by rw [hflat]; rfl⟩, fun row hrow => ?_, ?_⟩
    · rw [hflat] at hrow
      cases hrow
    · rw [hflat, hstart, carried, sub_zero]
  have hend := hbegin.run hpriced hrun
  refine ⟨fun row hrow => ?_, fun hnone => ?_, fun feeAsset => fees_run hrun key feeAsset⟩
  · obtain ⟨l, hl⟩ := hend.lot
    rw [hrow] at hl
    obtain ⟨cost, hcost, -⟩ : ∃ cost, row.entryValue = some cost ∧ ⟨row.signedQty, cost⟩ = l := by
      simpa [lotOf] using hl
    refine ⟨cost, hcost, ?_⟩
    rw [hend.cash, hrow, carried, hcost, Option.getD_some]
  · rw [hend.cash, hnone, carried, sub_zero]

end

def Attribution.fresh : Attribution := ⟨.empty, ∅, ∅, .default⟩

/-- A fill of the first sleeve in the first symbol, in USDT, with a fee. -/
def usdtBooking (side : Side) (qty px : Exact) (feeAsset : String) (fee : Exact) : Booking :=
  ⟨usdtFill side qty px, some ⟨.named feeAsset, ⟨fee, .venueDecimal⟩⟩, none⟩

/-- Two bought at 10 and three sold at 12, with fees in two assets. -/
theorem cash_and_cost_flip :
    ∃ a', [usdtBooking .buy 2 10 "BNB" (1 / 500), usdtBooking .sell 3 12 "USDT" (9 / 250)].foldlM
        (Attribution.book Binary64.nearestEven) Attribution.fresh = .ok a' ∧
      (∀ row, a'.inventory.position (0, 0) = some row → ∃ cost, row.entryValue = some cost ∧
        (a'.accounting.row (ownerOf (0, 0)) (.named "USDT")).executionCashFlow =
          (a'.accounting.row (ownerOf (0, 0)) (.named "USDT")).realizedGross - signum row.signedQty * cost) ∧
      (a'.accounting.row (ownerOf (0, 0)) (.named "BNB")).fees = 1 / 500 := by
  obtain ⟨a', hrun⟩ := exists_of_isOk (show ([usdtBooking .buy 2 10 "BNB" (1 / 500),
    usdtBooking .sell 3 12 "USDT" (9 / 250)].foldlM (book Binary64.nearestEven) fresh).isOk = true
    by decide +kernel)
  have hpriced : ∀ x ∈ [usdtBooking .buy 2 10 "BNB" (1 / 500), usdtBooking .sell 3 12 "USDT" (9 / 250)],
      x.fill.key = (0, 0) → x.PricedIn "USDT" := by
    intro x hx _
    rcases mem_pair.mp hx with rfl | rfl
    · exact ⟨by decide, rfl, rfl⟩
    · exact ⟨by decide, rfl, rfl⟩
  obtain ⟨hcash, -, hfees⟩ :=
    cash_and_cost_agree Binary64.nearestEven fresh a' _ (0, 0) "USDT" rfl rfl hpriced hrun
  refine ⟨a', hrun, hcash, ?_⟩
  rw [hfees "BNB"]
  decide +kernel

end LiquidityMigration.Portfolio
