import LiquidityMigration.Execution.Conservation
import LiquidityMigration.Numeric.Ieee

/- Open lots over a restart. A rotation writes a row for each (`Lots.checkpoint`); the next boot reads the side off
   the sign of the quantity and refuses cash that is not what entry and exit values say (`Lots.restore`). A lot is
   `Sound` when its row gives it back; every step keeps this but an adoption through zero, which turns the side and
   leaves the cash (`Lots.step_each`). Sound lots are restored under their owners (`restore_checkpoint`), and a step
   depends on the lots by owner alone (`Lots.step_alike`). -/
namespace LiquidityMigration.Execution
open Numeric Checks Portfolio AList Both Lot Lots

/-! ## The rows of a checkpoint -/

/-- What the log keeps of an open position. -/
structure OpenTradeLot where
  (sleeve symbol : String)
  signedQty : Exact
  exactQuantity : Bool
  (cash inQty inValue outQty outValue : Exact)
  fees : Option Exact
  usdt : Bool
  fills : Nat
  openedMs : Int
  priced : Bool
  deriving DecidableEq

def heldSide (x : ℚ) : Int := if x < 0 then -1 else 1

def Lot.row (lot : Lot) (key : LotKey) : OpenTradeLot where
  sleeve := key.1
  symbol := key.2
  signedQty := lot.signedQty
  exactQuantity := lot.exactQuantity
  cash := lot.cash
  inQty := lot.inQty
  inValue := lot.inValue
  outQty := lot.outQty
  outValue := lot.outValue
  fees := lot.fees
  usdt := lot.usdt
  fills := lot.fills
  openedMs := lot.openedMs
  priced := lot.priced

variable (b : Binary64) (lots : Lots)

def Lots.checkpoint : List OpenTradeLot := lots.opens.entries.map fun entry => entry.2.row entry.1

namespace OpenTradeLot

variable (row : OpenTradeLot)

def key : LotKey := (row.sleeve, row.symbol)

def amounts : List Exact :=
  [row.signedQty, row.cash, row.inQty, row.inValue, row.outQty, row.outValue] ++ row.fees.toList

def expectedCash : Exact :=
  if 0 < row.signedQty then row.outValue - row.inValue else row.inValue - row.outValue

/-- What `restore` asks of a row. -/
def check : Except String Unit := do
  firstError (row.amounts.map stores)
  require (row.signedQty ≠ 0 ∧ 0 ≤ row.inQty ∧ 0 ≤ row.inValue ∧ 0 ≤ row.outQty ∧ 0 ≤ row.outValue)
    "invalid open trade cost basis"
  require (row.cash = row.expectedCash) "open trade cash disagrees with its entry and exit values"

def lot : Lot where
  signedQty := row.signedQty
  exactQuantity := row.exactQuantity
  held := heldSide row.signedQty
  cash := row.cash
  inQty := row.inQty
  inValue := row.inValue
  outQty := row.outQty
  outValue := row.outValue
  fees := row.fees
  usdt := row.usdt
  fills := row.fills
  openedMs := row.openedMs
  priced := row.priced

end OpenTradeLot

abbrev Opens := AList fun _ : LotKey => Lot

variable (opens : Opens)

def restoreRow (row : OpenTradeLot) : Except String Opens := do
  row.check
  require (row.key ∉ opens) "duplicate open trade cost basis owner"
  .ok (opens.insert row.key row.lot)

def Lots.restore (rows : List OpenTradeLot) : Except String Lots := do
  let opens ← rows.foldlM restoreRow ∅
  .ok { lots with opens := opens }

/-! ## What else happens to open lots -/

/-- One row of `restate`: a quantity with no entry price. -/
def restateRow (row : LotKey × F64) : Opens :=
  match row.2 with
  | .finite quantity =>
    if quantity = 0 then opens else opens.insert row.1 { signedQty := quantity, held := heldSide quantity }
  | .nonFinite => opens

/-- Every position, from an older base's account of them. -/
def Lots.restate (held : List (LotKey × F64)) : Lots :=
  { lots with opens := held.foldl restateRow ∅ }

def restateExactRow (row : LotKey × Exact) : Except String Opens :=
  if row.2 = 0 then .ok opens
  else do
    let projected ← (toF64 b.nearest row.2).mapError ExactError.toString
    require (row.1 ∉ opens) "duplicate analytic position in portfolio snapshot"
    .ok (opens.insert row.1 { signedQty := row.2, exactQuantity := true, held := heldSide projected })

def Lots.restateExact (held : List (LotKey × Exact)) : Except String Lots := do
  let opens ← held.foldlM (restateExactRow b) ∅
  .ok { lots with opens := opens }

/-- The binary64 nearest to `1e-12`. -/
def settlementTolerance : ℚ := 4951760157141521 / 4951760157141521099596496896

/-- The settled quantity is the lot's: to the digit where that is exact, within rounding where it is not. -/
def Lot.agrees (lot : Lot) (signedDelta : Exact) (delta : ℚ) : Bool :=
  if lot.exactQuantity then lot.signedQty + signedDelta = 0
  else
    match toF64 b.nearest (lot.signedQty + signedDelta) with
    | .ok qty => (b.nearest (|delta| * settlementTolerance)).all fun t => |qty| ≤ max settlementTolerance t
    | .error _ => false

def Lots.validateInternal (key : LotKey) (signedDelta px : Exact) : Except String Unit := do
  require (signedDelta ≠ 0 ∧ 0 < px) "invalid internal settlement projection"
  let delta ← (toF64 b.nearest signedDelta).mapError ExactError.toString
  match lots.opens.lookup key with
  | some lot =>
    require (decide (lot.signedQty < 0) ≠ decide (signedDelta < 0) ∧ lot.agrees b signedDelta delta)
      "internal settlement projection disagrees with the analytic lot"
  | none => .ok ()

/-- The lot of a position settled inside the portfolio, as it is closed. -/
def Lot.settledAt (lot : Lot) (signedDelta px : Exact) (asset : AssetId) : Lot :=
  { lot with
    outQty := lot.outQty + |signedDelta|
    outValue := lot.outValue + |signedDelta| * px
    cash := lot.cash - signedDelta * px
    usdt := lot.usdt && isUsdt asset
    signedQty := 0 }

def Lots.settleInternal (key : LotKey) (signedDelta px : Exact) (closedMs : Int)
    (id : Nat) (asset : AssetId) : Except String Lots := do
  lots.validateInternal b key signedDelta px
  let delta ← (toF64 b.nearest signedDelta).mapError ExactError.toString
  let lot := (lots.opens.lookup key).getD { signedQty := -signedDelta, exactQuantity := true, held := -heldSide delta }
  let trade ← (lot.settledAt signedDelta px asset).closed b key.1 key.2 closedMs
  .ok { opens := lots.opens.erase key, closed := lots.closed ++ [{ trade with internalSettlement := some id }] }

/-- A sleeve's quantity before and after it is moved to the venue's grid. -/
structure QuantityAdoption where
  (sleeve symbol : String)
  (before after : Exact)

def QuantityAdoption.key (c : QuantityAdoption) : LotKey := (c.sleeve, c.symbol)

/-- The units that went in, once the lot has the adopted quantity. -/
def Lot.adoptedInQty (lot : Lot) (before after : Exact) : Exact :=
  if lot.priced then lot.inQty + if 0 < lot.held then after - before else -(after - before) else lot.inQty

/-- The lot with an adopted quantity; the values and the cash stay. -/
def Lot.adopt (lot : Lot) (before after : Exact) : Except String Lot := do
  require (lot.priced = true → 0 ≤ lot.adoptedInQty before after)
    "quantity adoption makes negative analytical input units"
  .ok { lot with
    inQty := lot.adoptedInQty before after
    signedQty := after
    held := if 0 < after then 1 else -1
    exactQuantity := true }

/-- The lots with an adopted one among them; a lot of nothing is dropped. -/
def adoptInto (c : QuantityAdoption) (lot : Lot) : Except String Opens :=
  if c.after = 0 then .ok (opens.erase c.key)
  else (lot.adopt c.before c.after).map fun next => opens.insert c.key next

def adoptRow (state : List LotKey × Opens) (c : QuantityAdoption) :
    Except String (List LotKey × Opens) := do
  require (c.key ∉ state.1) "repeated analytic quantity adoption"
  let lot ← orError (state.2.lookup c.key) "quantity adoption has no analytic lot"
  require (lot.signedQty = c.before) "quantity adoption changes its analytic source quantity"
  let next ← adoptInto state.2 c lot
  .ok (c.key :: state.1, next)

def Lots.adoptLegacyQuantities (corrections : List QuantityAdoption) : Except String Lots := do
  let (_, opens) ← corrections.foldlM adoptRow ([], lots.opens)
  .ok { lots with opens := opens }

inductive LotEvent where
  | filled (key : LotKey) (fill : Fill) (exactQty : Option Exact)
  /-- A fill shared between sleeves, with the slice of one of them. -/
  | allocated (owner : StrategyId) (key : LotKey) (fill : Fill) (allocation : ExecutionAllocation)
  | restated (held : List (LotKey × F64))
  | restatedExact (held : List (LotKey × Exact))
  | settled (key : LotKey) (signedDelta px : Exact) (closedMs : Int) (id : Nat) (asset : AssetId)
  | adopted (corrections : List QuantityAdoption)

def Lots.step : LotEvent → Except String Lots
  | .filled key fill exactQty => lots.onFillWithEconomics b key.1 key.2 fill exactQty none
  | .allocated owner key fill allocation => do
    let (part, economics) ← allocatedFill b owner fill allocation
    lots.onFillWithEconomics b key.1 key.2 part (some economics.quantity) (some economics)
  | .restated held => .ok (lots.restate held)
  | .restatedExact held => lots.restateExact b held
  | .settled key signedDelta px closedMs id asset => lots.settleInternal b key signedDelta px closedMs id asset
  | .adopted corrections => lots.adoptLegacyQuantities corrections

def Lots.run (events : List LotEvent) : Except String Lots := events.foldlM (Lots.step b) lots

/-! ## Lots that their rows give back -/

/-- **The row of the lot is taken, and gives the lot back**: the side is that of the
quantity, and the cash is what came out less what went in, on that side. -/
structure Lot.Sound (lot : Lot) : Prop where
  side : lot.signedQty ≠ 0 → lot.held = heldSide lot.signedQty
  quantities : 0 ≤ lot.inQty ∧ 0 ≤ lot.outQty
  values : 0 ≤ lot.inValue ∧ 0 ≤ lot.outValue
  cash : lot.cash = lot.held * (lot.outValue - lot.inValue)

theorem sound_new : Lot.Sound {} where
  side := fun h => absurd rfl h
  quantities := ⟨le_rfl, le_rfl⟩
  values := ⟨le_rfl, le_rfl⟩
  cash := by simp

theorem heldSide_cases (x : ℚ) : heldSide x = 1 ∧ 0 ≤ x ∨ heldSide x = -1 ∧ x < 0 := by
  unfold heldSide
  split
  · next h => exact .inr ⟨rfl, h⟩
  · next h => exact .inl ⟨rfl, not_lt.mp h⟩

theorem heldSide_congr {x y : ℚ} (h : x < 0 ↔ y < 0) : heldSide x = heldSide y := by
  unfold heldSide
  simp only [h]

theorem Lot.Sound.row_check {lot : Lot} (h : lot.Sound) (hopen : lot.signedQty ≠ 0) (key : LotKey)
    (hstored : ∀ x ∈ (lot.row key).amounts, validateStorage x = .ok ()) : (lot.row key).check = .ok () := by
  simp only [OpenTradeLot.check, ok_iff]
  refine ⟨?_, ⟨hopen, h.quantities.1, h.values.1, h.quantities.2, h.values.2⟩, ?_⟩
  · apply firstError_eq_ok.mpr
    intro c hc
    obtain ⟨x, hx, rfl⟩ := List.mem_map.mp hc
    exact stores_ok.mpr (validateStorage_ok.mp (hstored x hx))
  · have hcash := h.cash
    rw [h.side hopen] at hcash
    change lot.cash = if 0 < lot.signedQty then lot.outValue - lot.inValue else lot.inValue - lot.outValue
    rcases heldSide_cases lot.signedQty with ⟨hside, hpos⟩ | ⟨hside, hneg⟩
    · rw [hside] at hcash
      rw [if_pos (lt_of_le_of_ne hpos hopen.symm), hcash]
      push_cast
      ring
    · rw [hside] at hcash
      rw [if_neg hneg.not_gt, hcash]
      push_cast
      ring

theorem Lot.Sound.lot_row {lot : Lot} (h : lot.Sound) (hopen : lot.signedQty ≠ 0) (key : LotKey) :
    (lot.row key).lot = lot := by
  cases lot
  simp only [row, OpenTradeLot.lot, mk.injEq, true_and, and_true]
  exact (h.side hopen).symm

/-! ### Lots by owner -/

def Each : Prop := ∀ key lot, opens.lookup key = some lot → lot.signedQty ≠ 0 ∧ lot.Sound

section each
variable {opens : Opens} {key : LotKey} {lot : Lot}

theorem each_empty : Each ∅ := by
  intro key lot h
  rw [lookup_empty] at h
  cases h

theorem Each.insert (h : Each opens) (hopen : lot.signedQty ≠ 0) (hsound : lot.Sound) :
    Each (opens.insert key lot) := by
  intro other next hnext
  rcases eq_or_ne other key with rfl | hne
  · rw [lookup_insert] at hnext
    cases hnext
    exact ⟨hopen, hsound⟩
  · rw [lookup_insert_ne hne] at hnext
    exact h other next hnext

theorem Each.erase (h : Each opens) : Each (opens.erase key) := by
  intro other next hnext
  rcases eq_or_ne other key with rfl | hne
  · rw [lookup_erase] at hnext
    cases hnext
  · rw [lookup_erase_ne hne] at hnext
    exact h other next hnext

theorem sound_unpriced {quantity : Exact} {exact : Bool} {held : Int} (h : held = heldSide quantity) :
    Lot.Sound { signedQty := quantity, exactQuantity := exact, held := held } where
  side := fun _ => h
  quantities := ⟨le_rfl, le_rfl⟩
  values := ⟨le_rfl, le_rfl⟩
  cash := by simp

end each

/-! ## Fills -/

section fold
variable {b : Binary64} {lot next : Lot} {fill : Fill} {q v s cash : Exact} {exact : Bool}
  {economics : Option AllocationEconomics} {key : LotKey} {trade : Option ClosedTrade}

variable (fill economics) in
def Fill.Worth : Prop :=
  ∀ q v, 0 < q → fill.value economics q = .ok v → 0 ≤ v

/-- The legs of a lot come to `cash` on the side it is held. -/
structure Lot.Legs (lot : Lot) (cash : Exact) : Prop where
  held : lot.held = 1 ∨ lot.held = -1
  quantities : 0 ≤ lot.inQty ∧ 0 ≤ lot.outQty
  values : 0 ≤ lot.inValue ∧ 0 ≤ lot.outValue
  cash : cash = lot.held * (lot.outValue - lot.inValue)

theorem opened_held (fill : Fill) (s : Exact) (h : lot.Sound) :
    (lot.opened fill s).held = heldSide (if lot.signedQty = 0 then s else lot.signedQty) := by
  unfold opened
  split
  · rfl
  · next hopen => exact h.side hopen

theorem opened_legs (fill : Fill) (s : Exact) (h : lot.Sound) (hnew : lot.signedQty = 0 → lot = {}) :
    (lot.opened fill s).Legs lot.cash := by
  refine ⟨?_, ?_, ?_, ?_⟩
  · rw [opened_held fill s h]
    exact (heldSide_cases _).imp And.left And.left
  · unfold opened
    split <;> exact h.quantities
  · unfold opened
    split <;> exact h.values
  · unfold opened
    split
    · next hzero => simp [hnew hzero]
    · exact h.cash

theorem cash_of_side {held : Int} (hheld : held = 1 ∨ held = -1) (hs : s ≠ 0) (v : Exact) :
    (if 0 < s then -v else v) = if decide (s < 0) = decide (held < 0) then -(held * v) else held * v := by
  rcases lt_or_gt_of_ne hs with hneg | hpos
  · rcases hheld with rfl | rfl
    · simp [hneg, hneg.le]
    · simp [hneg, hneg.le]
  · rcases hheld with rfl | rfl
    · simp [hpos, hpos.le]
    · simp [hpos, hpos.le]

theorem Lot.Legs.entered (h : lot.Legs cash) (hs : s ≠ 0) (hq : 0 < q) (hv : 0 ≤ v) :
    (lot.entered q s v).held = lot.held ∧ (lot.entered q s v).Legs (cash + if 0 < s then -v else v) := by
  obtain ⟨hheld, ⟨hin, hout⟩, ⟨hinV, houtV⟩, hcash⟩ := h
  rw [cash_of_side hheld hs, hcash]
  unfold Lot.entered
  split
  · refine ⟨rfl, hheld, ⟨add_nonneg hin hq.le, hout⟩, ⟨add_nonneg hinV hv, houtV⟩, ?_⟩
    ring
  · refine ⟨rfl, hheld, ⟨hin, add_nonneg hout hq.le⟩, ⟨hinV, add_nonneg houtV hv⟩, ?_⟩
    ring

theorem heldSide_add {x s : ℚ} (hx : x ≠ 0) (hs : 0 ≤ x * s ∨ |s| ≤ |x|) (hsum : x + s ≠ 0) :
    heldSide (x + s) = heldSide x := by
  apply heldSide_congr
  rcases lt_or_gt_of_ne hx with hneg | hpos
  · refine iff_of_true (lt_of_le_of_ne ?_ hsum) hneg
    rcases hs with hs | hs
    · linarith [nonpos_of_mul_nonneg_right hs hneg]
    · rw [abs_of_neg hneg] at hs
      linarith [le_abs_self s]
  · refine iff_of_false (not_lt.mpr ?_) hpos.not_gt
    rcases hs with hs | hs
    · linarith [nonneg_of_mul_nonneg_right hs hpos]
    · rw [abs_of_pos hpos] at hs
      linarith [neg_abs_le s]

/-- **Folding in a part that does not go through zero keeps a lot sound.** -/
theorem fold_sound (h : lot.Sound) (hnew : lot.signedQty = 0 → lot = {}) (hq : 0 < q) (hworth : fill.Worth economics)
    (hdir : lot.signedQty ≠ 0 → 0 ≤ lot.signedQty * fill.signed q ∨ q ≤ |lot.signedQty|)
    (hfold : lot.fold fill q exact economics = .ok next) :
    next.Sound ∧ next.signedQty = lot.signedQty + fill.signed q := by
  simp only [fold, ok_iff] at hfold
  obtain ⟨v, hvalue, ⟨fee, whole⟩, -, fees, -, rfl⟩ := hfold
  have hs : fill.signed q ≠ 0 := signed_ne_zero fill hq
  have hbooks : ((lot.opened fill (fill.signed q)).entered q (fill.signed q) v).books = lot.books := by
    rw [books_entered, books_opened]
  simp only [books, Prod.mk.injEq] at hbooks
  obtain ⟨hsigned, -, hcash, -, -, -⟩ := hbooks
  obtain ⟨hheld, hlegs⟩ := (opened_legs fill (fill.signed q) h hnew).entered hs hq (hworth q v hq hvalue)
  refine ⟨⟨?_, hlegs.quantities, hlegs.values, ?_⟩, ?_⟩
  · intro hne
    simp only [hsigned] at hne ⊢
    rw [hheld, opened_held fill _ h]
    split
    · next hzero => rw [hzero, zero_add]
    · next hopen =>
      refine (heldSide_add hopen ?_ hne).symm
      rw [abs_signed fill hq.le]
      exact hdir hopen
  · show _ + _ = _
    rw [hcash]
    exact hlegs.cash
  · show _ + _ = _
    rw [hsigned]

/-- A lot that a fill can meet: an open one that is sound, or none. -/
def Lot.Met (lot : Lot) : Prop := lot.Sound ∧ (lot.signedQty = 0 → lot = {})

theorem met_new : Lot.Met {} := ⟨sound_new, fun _ => rfl⟩

theorem takeClosing_met (h : lot.Met) (hq : 0 < q) (hworth : fill.Worth economics)
    (htake : lot.takeClosing b key fill q exact economics = .ok (next, trade)) :
    next.Met ∧ (0 < q - lot.closing fill q →
      next = {} ∨ lot.closing fill q = 0 ∧ 0 ≤ next.signedQty * fill.signed q) := by
  have hclosing : lot.closing fill q = if lot.signedQty * fill.signed q < 0 then min q |lot.signedQty| else 0 :=
    closing_of_fill fill hq
  unfold takeClosing at htake
  by_cases hdir : lot.signedQty * fill.signed q < 0
  · rw [if_pos hdir] at hclosing
    have hopen : lot.signedQty ≠ 0 := left_ne_zero_of_mul hdir.ne
    have hpos : 0 < lot.closing fill q := hclosing ▸ lt_min hq (abs_pos.mpr hopen)
    rw [if_pos hpos, bind_eq_ok] at htake
    obtain ⟨folded, hfold, htake⟩ := htake
    obtain ⟨hsound, hsum⟩ := fold_sound h.1 h.2 hpos hworth
      (fun _ => .inr (hclosing ▸ min_le_right q |lot.signedQty|)) hfold
    split at htake
    · obtain ⟨_, -, htake⟩ := bind_eq_ok.mp htake
      cases htake
      exact ⟨met_new, fun _ => .inl rfl⟩
    · next hleft =>
      cases htake
      have hflat : next.signedQty ≠ 0 := by
        intro hzero
        exact hleft (by simp [flat, hzero])
      refine ⟨⟨hsound, fun hzero => absurd hzero hflat⟩, ?_⟩
      -- a fill with more to it has closed all there was
      intro hmore
      have hall : lot.closing fill q = |lot.signedQty| := by
        rw [hclosing] at hmore ⊢
        exact min_eq_right (le_of_not_ge fun hge => by rw [min_eq_left hge] at hmore; linarith)
      rw [hall, signed_abs_of_opposite fill hq hdir, add_neg_cancel] at hsum
      exact absurd hsum hflat
  · rw [if_neg hdir] at hclosing
    rw [hclosing, if_neg (lt_irrefl 0)] at htake
    cases htake
    exact ⟨h, fun _ => .inr ⟨hclosing, not_lt.mp hdir⟩⟩

/-- **A fill leaves a sound lot, or none.** -/
theorem take_met (h : lot.Met) (hq : 0 < q) (hworth : fill.Worth economics)
    (htake : lot.take b key fill q exact economics = .ok (next, trade)) : next.Met := by
  unfold take at htake
  obtain ⟨⟨closed, trip⟩, hclosed, htake⟩ := bind_eq_ok.mp htake
  obtain ⟨hmet, hmore⟩ := takeClosing_met h hq hworth hclosed
  dsimp only at htake
  split at htake
  · next hopening =>
    obtain ⟨opened, hfold, htake⟩ := bind_eq_ok.mp htake
    cases htake
    have hs : fill.signed (q - lot.closing fill q) ≠ 0 := signed_ne_zero fill hopening.1
    rcases hmore hopening.1 with hnew | ⟨hnone, hdir⟩
    · rw [hnew] at hfold
      obtain ⟨hsound, hsum⟩ := fold_sound sound_new (fun _ => rfl) hopening.1 hworth (fun hne => absurd rfl hne) hfold
      refine ⟨hsound, ?_⟩
      intro hzero
      rw [hsum, zero_add] at hzero
      exact absurd hzero hs
    · rw [hnone, sub_zero] at hfold hs
      obtain ⟨hsound, hsum⟩ := fold_sound hmet.1 hmet.2 hq hworth (fun _ => .inl hdir) hfold
      refine ⟨hsound, ?_⟩
      intro hzero
      have hback : closed.signedQty = -fill.signed q := by linarith
      rw [hback, neg_mul] at hdir
      exact absurd hdir (not_le.mpr (neg_neg_of_pos (mul_self_pos.mpr hs)))
  · cases htake
    exact hmet

end fold

/-! ### What fills are worth -/

section worth
variable {b : Binary64} {fill part : Fill} {e : AllocationEconomics} {p q : Exact} {exactQty : Option Exact}
  {owner : StrategyId} {allocation : ExecutionAllocation} {f64 : Exact → Option ℚ} {qty : F64}

theorem physicalQuantity_pos {amounts : Option ExecutionAmounts}
    (h : physicalQuantity f64 qty amounts = .ok q) : 0 < q := by
  unfold physicalQuantity at h
  dsimp only at h
  split at h
  · cases h
  · split at h
    · next hpos =>
      cases h
      exact hpos
    · cases h

theorem legacyQuantity_pos {step : Exact} (h : legacyQuantity f64 qty step = .ok q) : 0 < q := by
  unfold legacyQuantity at h
  split_ifs at h
  split at h
  · cases h
  · split at h
    · cases h
    · split at h
      · cases h
      · split at h
        · next hpos =>
          cases h
          exact hpos
        · cases h

theorem fillQuantity_pos {amounts : Option ExecutionAmounts}
    {allocation : Option ExecutionAllocation} (h : fillQuantity f64 qty amounts allocation = .ok q) : 0 < q := by
  unfold fillQuantity at h
  split at h
  · cases h
  · next raw hraw =>
    split at h
    · cases h
      exact physicalQuantity_pos hraw
    · split at h
      · cases h
      · exact legacyQuantity_pos h

theorem price_pos (hamounts : checkAmounts b fill exactQty = .ok ()) (hpx : positive fill.px = true)
    (h : fill.price = .ok p) : 0 < p := by
  unfold Fill.price at h
  unfold checkAmounts at hamounts
  split at h
  · next amounts heq =>
    cases h
    simp only [heq, validateProjection, ok_iff] at hamounts
    exact hamounts.1.2.2.1.2
  · cases hvalue : fill.px with
    | finite v =>
      rw [hvalue] at h hpx
      cases h
      exact of_decide_eq_true hpx
    | nonFinite =>
      rw [hvalue] at hpx
      cases hpx

theorem worth_of_price (h : ∀ p, fill.price = .ok p → 0 < p) : fill.Worth none := by
  intro q v hq hvalue
  simp only [Fill.value, ok_iff] at hvalue
  obtain ⟨p, hp, rfl⟩ := hvalue
  exact (mul_pos (h p hp) hq).le

theorem worth_of_consideration (hquantity : 0 < e.quantity) (h : 0 ≤ e.consideration) : fill.Worth (some e) := by
  intro q v hq hvalue
  simp only [Fill.value, checkedDiv, if_neg hquantity.ne', ok_iff] at hvalue
  obtain ⟨_, -, _, rfl, rfl⟩ := hvalue
  exact mul_nonneg h (div_pos hq hquantity).le

theorem consideration_nonneg (h : allocatedFill b owner fill allocation = .ok (part, e))
    (hprice : ∀ p, part.price = .ok p → 0 < p) (hquantity : 0 < e.quantity) : 0 ≤ e.consideration := by
  simp only [allocatedFill, ok_iff, Prod.mk.injEq] at h
  obtain ⟨slice, -, whole, hwhole, economic, heconomic, price, hp, share, hshare, _, -, _, -, rfl, rfl⟩ := h
  have hpos := fillQuantity_pos hwhole
  rw [checkedDiv, if_neg hpos.ne'] at hshare
  cases hshare
  have hsame : 0 < price := by
    apply hprice
    rw [← hp]
    unfold Fill.price
    cases fill.amounts <;> rfl
  exact (mul_pos (mul_pos (physicalQuantity_pos heconomic) hsame) (div_pos hquantity hpos)).le

end worth

/-! ### Every step keeps the lots sound -/

section each
variable {b : Binary64} {lots next : Lots} {key : LotKey} {fill : Fill} {exactQty : Option Exact}
  {economics : Option AllocationEconomics} {opens opens' : Opens}

theorem Each.met (h : Each lots.opens) (key : LotKey) : (lots.lot key).Met := by
  unfold lot
  cases hlot : lots.opens.lookup key with
  | none => exact met_new
  | some lot =>
    obtain ⟨hopen, hsound⟩ := h key lot hlot
    exact ⟨hsound, fun hzero => absurd hzero hopen⟩

/-- The quantity of a fill: exact where there is one, else what its binary64 stands for. -/
def Fill.quantityOf (fill : Fill) : Option Exact → Except String Exact
  | some quantity => .ok quantity
  | none => (fromLegacyF64 fill.qty).mapError ExactError.toString

theorem settle_eq_put : lots.settle b key fill exactQty economics = (do
    let quantity ← fill.quantityOf exactQty
    checkQuantity b fill quantity
    let result ← (lots.lot key).take b key fill quantity (exactQty.isSome || (lots.lot key).exactQuantity) economics
    .ok (lots.put key result.1 result.2)) := by
  cases exactQty <;> rfl

variable (b fill exactQty) in
/-- The exact quantity of a fill, where there is one, is checked against its binary64. -/
def Fill.checkExact : Except String Unit :=
  (exactQuantity fill exactQty).elim (.ok ()) (checkQuantity b fill)

theorem onFill_eq : lots.onFillWithEconomics b key.1 key.2 fill exactQty economics = (do
    checkAmounts b fill exactQty
    fill.checkExact b exactQty
    if positive fill.qty && positive fill.px then lots.settle b key fill (exactQuantity fill exactQty) economics
    else .ok lots) := by
  unfold onFillWithEconomics Fill.checkExact
  cases exactQuantity fill exactQty <;> rfl

theorem onFill_ok (hok : lots.onFillWithEconomics b key.1 key.2 fill exactQty economics = .ok next) :
    checkAmounts b fill exactQty = .ok () ∧ fill.checkExact b exactQty = .ok () ∧ (next = lots ∨
        positive fill.px = true ∧ lots.settle b key fill (exactQuantity fill exactQty) economics = .ok next) := by
  rw [onFill_eq] at hok
  obtain ⟨_, hamounts, hok⟩ := bind_eq_ok.mp hok
  obtain ⟨_, hexact, hok⟩ := bind_eq_ok.mp hok
  refine ⟨hamounts, hexact, ?_⟩
  split at hok
  · next hpositive =>
    rw [Bool.and_eq_true] at hpositive
    exact .inr ⟨hpositive.2, hok⟩
  · cases hok
    exact .inl rfl

theorem onFill_each (h : Each lots.opens)
    (hworth : (∀ p, fill.price = .ok p → 0 < p) → (∀ q, exactQuantity fill exactQty = some q → 0 < q) →
      fill.Worth economics)
    (hok : lots.onFillWithEconomics b key.1 key.2 fill exactQty economics = .ok next) : Each next.opens := by
  obtain ⟨hamounts, hexact, rfl | ⟨hpx, hsettle⟩⟩ := onFill_ok hok
  · exact h
  · have hworth' := hworth (fun p hp => price_pos hamounts hpx hp) (by
      intro q hq
      simp only [Fill.checkExact, hq, Option.elim_some, checkQuantity, ok_iff] at hexact
      exact hexact.1)
    rw [settle_eq_put] at hsettle
    obtain ⟨q, -, hsettle⟩ := bind_eq_ok.mp hsettle
    obtain ⟨_, hcheck, hsettle⟩ := bind_eq_ok.mp hsettle
    obtain ⟨⟨lot, trade⟩, htake, hsettle⟩ := bind_eq_ok.mp hsettle
    cases hsettle
    simp only [checkQuantity, ok_iff] at hcheck
    have hmet := take_met (h.met key) hcheck.1 hworth' htake
    unfold put
    dsimp only
    split
    · exact h.erase
    · next hopen => exact h.insert hopen hmet.1

theorem restateRow_each {row : LotKey × F64} (h : Each opens) : Each (restateRow opens row) := by
  unfold restateRow
  split
  · split
    · exact h
    · next hne => exact h.insert hne (sound_unpriced rfl)
  · exact h

theorem restate_each (held : List (LotKey × F64)) (h : Each opens) : Each (held.foldl restateRow opens) := by
  induction held generalizing opens with
  | nil => exact h
  | cons row held ih => exact ih (restateRow_each h)

theorem heldSide_toF64 (hb : b.Lawful) {x : Exact} {v : ℚ} (hx : x ≠ 0) (h : toF64 b.nearest x = .ok v) :
    heldSide v = heldSide x := by
  obtain ⟨hv, hzero⟩ := Binary64.toF64_eq_ok.mp h
  have hne : v ≠ 0 := fun hv => hx (hzero hv)
  apply heldSide_congr
  rcases lt_or_gt_of_ne hx with hneg | hpos
  · exact iff_of_true (lt_of_le_of_ne (hb.mono hneg.le hv hb.zero) hne) hneg
  · exact iff_of_false (hb.mono hpos.le hb.zero hv).not_gt hpos.not_gt

theorem restateExactRow_each (hb : b.Lawful) {row : LotKey × Exact} (h : Each opens)
    (hok : restateExactRow b opens row = .ok opens') : Each opens' := by
  unfold restateExactRow at hok
  split at hok
  · cases hok
    exact h
  · next hne =>
    simp only [ok_iff] at hok
    obtain ⟨projected, hprojected, -, rfl⟩ := hok
    exact h.insert hne (sound_unpriced (heldSide_toF64 hb hne hprojected))

/-- **The correction leaves the cash right**: it keeps the side of the lot, drops the lot, or meets one whose
entry and exit values are the same. -/
def QuantityAdoption.KeepsBasis (lots : Lots) (c : QuantityAdoption) : Prop :=
  c.after = 0 ∨ (c.after < 0 ↔ c.before < 0) ∨ (lots.lot c.key).inValue = (lots.lot c.key).outValue

theorem adopt_sound {lot adopted : Lot} {before after : Exact} (h : lot.Sound) (hopen : lot.signedQty ≠ 0)
    (hbefore : lot.signedQty = before) (hafter : after ≠ 0)
    (hside : (after < 0 ↔ before < 0) ∨ lot.inValue = lot.outValue) (hok : lot.adopt before after = .ok adopted) :
    adopted.signedQty = after ∧ adopted.Sound := by
  simp only [adopt, ok_iff] at hok
  obtain ⟨hunits, rfl⟩ := hok
  have hheld : (if 0 < after then 1 else -1 : Int) = heldSide after := by
    unfold heldSide
    rcases lt_or_gt_of_ne hafter with hneg | hpos
    · rw [if_neg hneg.not_gt, if_pos hneg]
    · rw [if_pos hpos, if_neg hpos.not_gt]
  refine ⟨rfl, fun _ => hheld, ⟨?_, h.quantities.2⟩, h.values, ?_⟩
  · by_cases hpriced : lot.priced = true
    · exact hunits hpriced
    · simp only [adoptedInQty, if_neg hpriced]
      exact h.quantities.1
  · show lot.cash = ((if 0 < after then 1 else -1 : Int) : ℚ) * (lot.outValue - lot.inValue)
    rw [hheld, h.cash]
    rcases hside with hside | heven
    · rw [h.side hopen, hbefore, heldSide_congr hside]
    · rw [heven, sub_self, mul_zero, mul_zero]

theorem adoptRow_each {c : QuantityAdoption} {state state' : List LotKey × Opens} (hc : c.KeepsBasis lots)
    (h : Each state.2 ∧ ∀ key ∉ state.1, state.2.lookup key = lots.opens.lookup key)
    (hok : adoptRow state c = .ok state') :
    Each state'.2 ∧ ∀ key ∉ state'.1, state'.2.lookup key = lots.opens.lookup key := by
  obtain ⟨heach, hsame⟩ := h
  simp only [adoptRow, ok_iff] at hok
  obtain ⟨hfresh, lot, hlot, hbefore, opens, hopens, rfl⟩ := hok
  obtain ⟨hopen, hsound⟩ := heach c.key lot hlot
  unfold adoptInto at hopens
  split at hopens
  · cases hopens
    refine ⟨heach.erase, ?_⟩
    intro key hkey
    rw [List.mem_cons, not_or] at hkey
    rw [lookup_erase_ne hkey.1]
    exact hsame key hkey.2
  · next hafter =>
    obtain ⟨adopted, hadopted, rfl⟩ := map_eq_ok.mp hopens
    have hown : lots.lot c.key = lot := by
      rw [Lots.lot, ← hsame c.key hfresh, hlot]
      rfl
    have hside := hc.resolve_left hafter
    rw [hown] at hside
    obtain ⟨hqty, hsound'⟩ := adopt_sound hsound hopen hbefore hafter hside hadopted
    refine ⟨heach.insert (hqty ▸ hafter) hsound', ?_⟩
    intro key hkey
    rw [List.mem_cons, not_or] at hkey
    rw [lookup_insert_ne hkey.1]
    exact hsame key hkey.2

/-- The condition on a step: the corrections of an adoption leave the cash right. -/
def LotEvent.KeepsBasis (lots : Lots) : LotEvent → Prop
  | .adopted corrections => ∀ c ∈ corrections, c.KeepsBasis lots
  | _ => True

/-- **A step that leaves the cash right keeps every lot sound.** -/
theorem Lots.step_each (hb : b.Lawful) {event : LotEvent} (h : Each lots.opens) (hevent : event.KeepsBasis lots)
    (hok : lots.step b event = .ok next) : Each next.opens := by
  cases event with
  | filled key fill exactQty => exact onFill_each h (fun hprice _ => worth_of_price hprice) hok
  | allocated owner key fill allocation =>
    obtain ⟨⟨part, e⟩, hpart, hok⟩ := bind_eq_ok.mp hok
    refine onFill_each h ?_ hok
    intro hprice hexact
    have hquantity : 0 < e.quantity := by
      apply hexact
      unfold exactQuantity
      simp only [allocatedFill, ok_iff, Prod.mk.injEq] at hpart
      obtain ⟨slice, -, -, -, -, -, -, -, -, -, -, -, -, -, rfl, rfl⟩ := hpart
      cases fill.amounts <;> rfl
    exact worth_of_consideration hquantity (consideration_nonneg hpart hprice hquantity)
  | restated held =>
    cases hok
    exact restate_each held each_empty
  | restatedExact held =>
    simp only [step, restateExact, ok_iff] at hok
    obtain ⟨opens, hopens, rfl⟩ := hok
    exact foldlM_invariant (fun h hrow => restateExactRow_each hb h hrow) each_empty hopens
  | settled key signedDelta px closedMs id asset =>
    simp only [step, settleInternal, ok_iff] at hok
    obtain ⟨-, -, -, -, -, -, rfl⟩ := hok
    exact h.erase
  | adopted corrections =>
    simp only [step, adoptLegacyQuantities, ok_iff] at hok
    obtain ⟨⟨seen, opens⟩, hopens, rfl⟩ := hok
    exact (foldlM_invariant_of_mem (fun c hc _ _ hstate hrow => adoptRow_each (hevent c hc) hstate hrow)
      ⟨h, fun _ _ => rfl⟩ hopens).1

end each

/-! ## The restored lots -/

section restore
variable {opens opens' : Opens} {key : LotKey}

def Same (opens opens' : Opens) : Prop := ∀ key, opens.lookup key = opens'.lookup key

theorem Same.insert (h : Same opens opens') (lot : Lot) : Same (opens.insert key lot) (opens'.insert key lot) := by
  intro other
  rcases eq_or_ne other key with rfl | hne
  · rw [lookup_insert, lookup_insert]
  · rw [lookup_insert_ne hne, lookup_insert_ne hne, h other]

theorem Same.erase (h : Same opens opens') : Same (opens.erase key) (opens'.erase key) := by
  intro other
  rcases eq_or_ne other key with rfl | hne
  · rw [lookup_erase, lookup_erase]
  · rw [lookup_erase_ne hne, lookup_erase_ne hne, h other]

def Storable (lots : Lots) : Prop := ∀ row ∈ lots.checkpoint, ∀ x ∈ row.amounts, validateStorage x = .ok ()

theorem restoreRows (entries : List (Sigma (fun _ : LotKey => Lot))) (hnodup : entries.NodupKeys)
    (hfresh : ∀ entry ∈ entries, entry.1 ∉ opens)
    (hrow : ∀ entry ∈ entries, (entry.2.row entry.1).check = .ok () ∧ (entry.2.row entry.1).lot = entry.2) :
    ∃ opens', (entries.map (fun entry => entry.2.row entry.1)).foldlM restoreRow opens = .ok opens' ∧
      ∀ key, opens'.lookup key = (entries.dlookup key).or (opens.lookup key) := by
  induction entries generalizing opens with
  | nil => exact ⟨opens, rfl, fun _ => rfl⟩
  | cons entry entries ih =>
    obtain ⟨owner, lot⟩ := entry
    obtain ⟨hcheck, hlot⟩ := hrow ⟨owner, lot⟩ List.mem_cons_self
    obtain ⟨hnot, hnodup⟩ := List.nodupKeys_cons.mp hnodup
    have hkey : owner ∉ opens := hfresh ⟨owner, lot⟩ List.mem_cons_self
    have hnext : restoreRow opens (lot.row owner) = .ok (opens.insert owner lot) := by
      have hown : (lot.row owner).key = owner := rfl
      simp only [restoreRow, bind_eq_ok, exists_unit, require_eq_ok, hown]
      exact ⟨hcheck, hkey, congrArg (fun lot => Except.ok (opens.insert owner lot)) hlot⟩
    have hfresh' : ∀ entry ∈ entries, entry.1 ∉ opens.insert owner lot := by
      intro entry hentry
      rw [mem_insert, not_or]
      refine ⟨?_, hfresh entry (List.mem_cons_of_mem _ hentry)⟩
      rintro rfl
      have hmem := List.mem_keys_of_mem hentry
      exact hnot hmem
    obtain ⟨opens', hrest, hlookup⟩ := ih hnodup hfresh' fun entry hentry => hrow entry (List.mem_cons_of_mem _ hentry)
    refine ⟨opens', ?_, ?_⟩
    · rw [List.map_cons, List.foldlM_cons, hnext]
      exact hrest
    · intro key
      rw [hlookup key]
      rcases eq_or_ne key owner with rfl | hne
      · rw [List.dlookup_cons_eq, lookup_insert, List.dlookup_eq_none.mpr hnot]
        rfl
      · rw [List.dlookup_cons_ne _ _ hne, lookup_insert_ne hne]

/-- **The rows of sound lots whose amounts can be stored are taken, and give the lots back.** -/
theorem restore_checkpoint {lots : Lots} (h : Each lots.opens) (hstored : Storable lots) (fresh : Lots) :
    ∃ restored, fresh.restore lots.checkpoint = .ok restored ∧ Same lots.opens restored.opens ∧
      restored.closed = fresh.closed := by
  have hrow : ∀ entry ∈ lots.opens.entries,
      (entry.2.row entry.1).check = .ok () ∧ (entry.2.row entry.1).lot = entry.2 := by
    rintro ⟨key, lot⟩ hentry
    obtain ⟨hopen, hsound⟩ := h key lot (mem_lookup_iff.mpr hentry)
    have hmem : lot.row key ∈ lots.checkpoint := List.mem_map.mpr ⟨⟨key, lot⟩, hentry, rfl⟩
    exact ⟨hsound.row_check hopen key (hstored _ hmem), hsound.lot_row hopen key⟩
  have hfresh : ∀ entry ∈ lots.opens.entries, entry.1 ∉ (∅ : Opens) := fun entry _ => notMem_empty entry.1
  obtain ⟨opens, hopens, hlookup⟩ := restoreRows lots.opens.entries lots.opens.nodupKeys hfresh hrow
  refine ⟨{ fresh with opens := opens }, ?_, ?_, rfl⟩
  · rw [restore, checkpoint, hopens]
    rfl
  · intro key
    rw [hlookup key, lookup_empty, Option.or_none]
    rfl

end restore

/-! ## Going on from restored lots -/

section alike
variable {b : Binary64} {base base' lots lots' : Lots} {key : LotKey}

/-- **The same open lots by owner, and the same trips closed since**: two states of which the
second goes on from restored lots. -/
structure Alike (base base' lots lots' : Lots) : Prop where
  opens : Same lots.opens lots'.opens
  closed : ∃ trips, lots.closed = base.closed ++ trips ∧ lots'.closed = base'.closed ++ trips

section
variable (h : Alike base base' lots lots')
include h

theorem Alike.lot (key : LotKey) : lots.lot key = lots'.lot key := by
  rw [Lots.lot, Lots.lot, h.opens key]

theorem Alike.write {opens opens' : Opens} (hopens : Same opens opens') (trades : List ClosedTrade) :
    Alike base base' ⟨opens, lots.closed ++ trades⟩ ⟨opens', lots'.closed ++ trades⟩ := by
  obtain ⟨trips, hclosed, hclosed'⟩ := h.closed
  refine ⟨hopens, trips ++ trades, ?_, ?_⟩
  · rw [hclosed, List.append_assoc]
  · rw [hclosed', List.append_assoc]

theorem Alike.restated {opens opens' : Opens} (hopens : Same opens opens') :
    Alike base base' { lots with opens := opens } { lots' with opens := opens' } := ⟨hopens, h.closed⟩

theorem Alike.put (next : Lot) (trade : Option ClosedTrade) :
    Alike base base' (lots.put key next trade) (lots'.put key next trade) := by
  apply h.write
  split
  · exact h.opens.erase
  · exact h.opens.insert next

theorem onFill_alike {fill : Fill} {exactQty : Option Exact} {economics : Option AllocationEconomics} :
    Both (Alike base base') (lots.onFillWithEconomics b key.1 key.2 fill exactQty economics)
      (lots'.onFillWithEconomics b key.1 key.2 fill exactQty economics) := by
  rw [onFill_eq, onFill_eq]
  apply after
  intro _
  apply after
  intro _
  split
  · rw [settle_eq_put, settle_eq_put, h.lot key]
    apply after
    intro quantity
    apply after
    intro _
    apply after
    rintro ⟨next, trade⟩
    exact .ok (h.put next trade)
  · exact .ok h

theorem settleInternal_alike {signedDelta px : Exact} {closedMs : Int} {id : Nat} {asset : AssetId} :
    Both (Alike base base') (lots.settleInternal b key signedDelta px closedMs id asset)
      (lots'.settleInternal b key signedDelta px closedMs id asset) := by
  have hvalid : lots.validateInternal b key signedDelta px = lots'.validateInternal b key signedDelta px := by
    rw [validateInternal, validateInternal, h.opens key]
  rw [settleInternal, settleInternal, hvalid, h.opens key]
  apply after
  intro _
  apply after
  intro delta
  apply after
  intro trade
  exact .ok (h.write h.opens.erase _)

end

theorem adoptRow_alike {state state' : List LotKey × Opens} (c : QuantityAdoption)
    (h : state.1 = state'.1 ∧ Same state.2 state'.2) :
    Both (fun next next' => next.1 = next'.1 ∧ Same next.2 next'.2) (adoptRow state c) (adoptRow state' c) := by
  obtain ⟨hseen, hopens⟩ := h
  rw [adoptRow, adoptRow, hseen, hopens c.key]
  apply after
  intro _
  apply after
  intro lot
  apply after
  intro _
  have hnext : Both Same (adoptInto state.2 c lot) (adoptInto state'.2 c lot) := by
    unfold adoptInto
    split
    · exact .ok hopens.erase
    · cases lot.adopt c.before c.after with
      | error e => exact .error e
      | ok adopted => exact .ok (hopens.insert adopted)
  apply hnext.bind
  intro opens opens' hsame
  exact .ok ⟨rfl, hsame⟩

/-- **A step depends on the lots by owner alone**, in what it leaves and in the trips it closes. -/
theorem Lots.step_alike (event : LotEvent) (h : Alike base base' lots lots') :
    Both (Alike base base') (lots.step b event) (lots'.step b event) := by
  cases event with
  | filled key fill exactQty => exact onFill_alike h
  | allocated owner key fill allocation =>
    apply after
    rintro ⟨part, economics⟩
    exact onFill_alike h
  | restated held => exact .ok (h.restated (fun _ => rfl))
  | restatedExact held =>
    apply after
    intro opens
    exact .ok (h.restated (fun _ => rfl))
  | settled key signedDelta px closedMs id asset => exact settleInternal_alike h
  | adopted corrections =>
    have hrows : Both (fun next next' => next.1 = next'.1 ∧ Same next.2 next'.2)
        (corrections.foldlM adoptRow ([], lots.opens)) (corrections.foldlM adoptRow ([], lots'.opens)) :=
      foldlM (fun _ _ c hstate => adoptRow_alike c hstate) ⟨rfl, h.opens⟩
    apply hrows.bind
    rintro ⟨_, opens⟩ ⟨_, opens'⟩ ⟨-, hsame⟩
    exact .ok (h.restated hsame)

end alike

/-! ## The round trip -/

def tripsSince (base lots : Lots) : List ClosedTrade := lots.closed.drop base.closed.length

inductive Reachable (b : Binary64) : Lots → Prop where
  | start : Reachable b {}
  | step {lots next : Lots} {event : LotEvent} (h : Reachable b lots) (hkeeps : event.KeepsBasis lots)
      (hok : lots.step b event = .ok next) : Reachable b next

theorem Reachable.each {b : Binary64} (hb : b.Lawful) {lots : Lots} (h : Reachable b lots) : Each lots.opens := by
  induction h with
  | start => exact each_empty
  | step _ hkeeps hok ih => exact step_each hb ih hkeeps hok

/-- **The checkpoint of open lots is taken back, and trading goes on as it would have.** Where every adoption
of the run leaves the cash right and the amounts of the lots can be stored, the rows are restored,
and whatever follows closes the same trips, or is refused for the same reason. -/
theorem checkpoint_round_trip (b : Binary64) (hb : b.Lawful) (lots : Lots) (hreach : Reachable b lots)
    (hstored : Storable lots) (fresh : Lots) :
    ∃ restored, fresh.restore lots.checkpoint = .ok restored ∧ ∀ events,
      (restored.run b events).map (tripsSince restored) = (lots.run b events).map (tripsSince lots) := by
  obtain ⟨restored, hrestored, hsame, -⟩ := restore_checkpoint (hreach.each hb) hstored fresh
  refine ⟨restored, hrestored, ?_⟩
  intro events
  have hstart : Alike lots restored lots restored := ⟨hsame, [], (List.append_nil _).symm, (List.append_nil _).symm⟩
  have hrun : Both (Alike lots restored) (lots.run b events) (restored.run b events) :=
    foldlM (fun _ _ event h => step_alike event h) hstart
  refine (hrun.map_eq ?_).symm
  rintro after after' ⟨-, trips, hclosed, hclosed'⟩
  rw [tripsSince, tripsSince, hclosed, hclosed', List.drop_left, List.drop_left]

theorem Reachable.of_run {b : Binary64} {events : List LotEvent} (h : ∀ event ∈ events, ∀ lots, event.KeepsBasis lots)
    {lots : Lots} (hrun : Lots.run b {} events = .ok lots) : Reachable b lots :=
  foldlM_invariant_of_mem (fun event hevent lots _ hreach hok => .step hreach (h event hevent lots) hok) .start hrun

def venueFill (side : Side) (quantity price : ℚ) : Fill where
  amounts := some ⟨.named "USDT", .ofDerived quantity, .ofDerived price, some ⟨.named "USDT", .ofDerived 0⟩⟩
  side := side
  qty := .finite quantity
  px := .finite price
  fee := some (.finite 0)
  venueTsMs := 1

def legacyFill (side : Side) (quantity price : ℚ) : Fill :=
  { venueFill side quantity price with amounts := none }

/-- A position bought, partly sold, and moved to a grid of halves. -/
def boughtAndMoved : List LotEvent :=
  [.filled ("carry", "BTCUSDT") (venueFill .buy 10 100) none,
    .filled ("carry", "BTCUSDT") (legacyFill .sell (17 / 2) 110) none,
    .adopted [⟨"carry", "BTCUSDT", 3 / 2, 1⟩]]

theorem checkpoint_round_trip_moved : ∃ lots restored, Lots.run .nearestEven {} boughtAndMoved = .ok lots ∧
      Lots.restore {} lots.checkpoint = .ok restored ∧ ∀ events,
        (restored.run .nearestEven events).map (tripsSince restored) =
          (lots.run .nearestEven events).map (tripsSince lots) := by
  have hrun : (run .nearestEven {} boughtAndMoved).map checkpoint =
      .ok [⟨"carry", "BTCUSDT", 1, true, -65, 19 / 2, 1000, 17 / 2, 935, some 0, true, 2, 1, true⟩] := by
    decide +kernel
  obtain ⟨lots, hlots, hrows⟩ := map_eq_ok.mp hrun
  have hkeeps : ∀ event ∈ boughtAndMoved, ∀ lots, event.KeepsBasis lots := by
    intro event hevent lots
    simp only [boughtAndMoved, List.mem_cons, List.not_mem_nil, or_false] at hevent
    rcases hevent with rfl | rfl | rfl
    · trivial
    · trivial
    · intro c hc
      rw [List.mem_singleton.mp hc]
      exact .inr (.inl (by decide +kernel))
  have hstored : Storable lots := by
    unfold Storable
    rw [hrows]
    decide +kernel
  obtain ⟨restored, hrestored, hgoes⟩ := checkpoint_round_trip .nearestEven Binary64.nearestEven_lawful lots
    (Reachable.of_run hkeeps hlots) hstored {}
  exact ⟨lots, restored, hlots, hrestored, hgoes⟩

def restart (events : List LotEvent) : Except String (Except String (List ClosedTrade)) :=
  (Lots.run b {} events).map fun lots => (Lots.restore {} lots.checkpoint).map Lots.closed

/-- **An adoption through zero leaves rows that are refused.** A short of `10^16 - 8` units is bought
back to `-8` by a fill of an older log; the one multiple of `1000` within its rounding is `16` away, so
on the grid the position is `8`, held long, with the cash of a short. Exact fills alone end the same
way. -/
theorem adopted_through_zero : (Origin.note Binary64.nearestEven.nearest ⟨0, 0⟩ (10 ^ 16 - 16) >>= fun origin =>
        origin.resolve Binary64.nearestEven.nearest (-8) 1000) = .ok 8 ∧
      restart .nearestEven
        [.filled ("carry", "PEPEUSDT") (venueFill .sell (10 ^ 16 - 8) 1) none,
          .filled ("carry", "PEPEUSDT") (legacyFill .buy (10 ^ 16 - 16) 2) none,
          .adopted [⟨"carry", "PEPEUSDT", -8, 8⟩]] =
        .ok (.error "open trade cash disagrees with its entry and exit values") ∧
      restart .nearestEven
        [.filled ("carry", "BTCUSDT") (venueFill .buy 10 100) none,
          .filled ("carry", "BTCUSDT") (venueFill .sell 9 110) none,
          .adopted [⟨"carry", "BTCUSDT", 1, -1⟩]] =
        .ok (.error "open trade cash disagrees with its entry and exit values") := by
  decide +kernel

end LiquidityMigration.Execution
