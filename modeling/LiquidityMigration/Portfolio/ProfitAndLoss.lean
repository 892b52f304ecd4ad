import LiquidityMigration.Portfolio.Inventory

/- What a sleeve's fills come to. A row with a known cost is a lot of
   average-cost accounting, and a priced fill of it in its own asset is a trade of
   that lot (`nextPosition_lot`), so the accounting laws of `AverageCost` hold of
   the inventory along any history of one sleeve and symbol (`profitAndLoss`),
   whatever happens to the others in between. -/
namespace LiquidityMigration.Portfolio
open Numeric AverageCost List Inventory Lot

def lotOf : Option PortfolioPosition → Option (Lot Exact)
  | none => some .flat
  | some row => row.entryValue.map fun v => ⟨row.signedQty, v⟩

section
variable {prior : Option PortfolioPosition} {fill : InventoryFill}
  {out : Option PortfolioPosition × RealizedValue} {l : Lot Exact} {p : Exact}

theorem signum_eq_signum {q d : Exact} (hq : q ≠ 0) (hd : d ≠ 0) : signum q = signum d ↔ 0 < q * d := by
  unfold signum
  rcases lt_or_gt_of_ne hq with hq | hq <;> rcases lt_or_gt_of_ne hd with hd | hd
  · simp [hq, hd, not_lt.mpr hq.le, not_lt.mpr hd.le, mul_pos_of_neg_of_neg hq hd]
  · simp [hq, hd, not_lt.mpr hq.le, not_lt.mpr (mul_neg_of_neg_of_pos hq hd).le]
  · simp [hq, hd, not_lt.mpr hd.le, not_lt.mpr (mul_neg_of_pos_of_neg hq hd).le]
  · simp [hq, hd, mul_pos hq hd]

theorem heldTerms_priced {held : PortfolioPosition} {v : Exact} (hv : held.entryValue = some v)
    (hpx : fill.px = some p) (hq : held.signedQty ≠ 0) (hqty : 0 < fill.qty)
    (hasset : held.settlementAsset = fill.settlementAsset) :
    ∃ stop, heldTerms held fill = (some ((Lot.mk held.signedQty v).trade fill.delta p).1.cost, stop,
      fill.settlementAsset, some ((Lot.mk held.signedQty v).trade fill.delta p).2) := by
  have habs := abs_delta hqty
  have hsign := signum_eq_signum hq (delta_ne_zero hqty)
  unfold heldTerms trade
  simp only [hv, hpx, hq, hsign, habs, joinedAsset, hasset, if_true, if_false, Option.map₂_some_some, Option.map_some]
  split
  · exact ⟨_, rfl⟩
  · split
    · exact ⟨_, rfl⟩
    · split
      · exact ⟨_, rfl⟩
      · exact ⟨_, rfl⟩

theorem nextPosition_lot (hlot : lotOf prior = some l) (hvalid : ∀ row, prior = some row → row.Valid)
    (hqty : 0 < fill.qty) (hp : 0 < p) (hpx : fill.px = some p)
    (hasset : ∀ row, prior = some row → row.settlementAsset = fill.settlementAsset)
    (h : nextPosition prior fill = .ok out) :
    lotOf out.1 = some (l.trade fill.delta p).1 ∧ out.2.amount = some (l.trade fill.delta p).2 ∧
    out.2.asset = fill.settlementAsset ∧ ∀ row, out.1 = some row → row.settlementAsset = fill.settlementAsset := by
  have hd := delta_ne_zero hqty
  cases prior with
  | none =>
    cases hlot
    cases h
    have hopen : flat.trade fill.delta p = (⟨fill.delta, fill.qty * p⟩, 0) := by
      simp [trade, flat, abs_delta hqty]
    rw [hopen]
    refine ⟨by simp [lotOf, hpx], rfl, rfl, ?_⟩
    intro row hrow
    cases hrow
    rfl
  | some held =>
    have hheld := hvalid held rfl
    obtain ⟨v, hv, rfl⟩ : ∃ v, held.entryValue = some v ∧ ⟨held.signedQty, v⟩ = l := by
      simpa [lotOf] using hlot
    obtain ⟨stop, hterms⟩ := heldTerms_priced hv hpx hheld.qty hqty (hasset held rfl)
    have hnamed : assetChanged fill.settlementAsset fill.settlementAsset = false := by
      cases fill.settlementAsset <;> simp [assetChanged]
    have hsum : ((mk held.signedQty v).trade fill.delta p).1.qty = held.signedQty + fill.delta :=
      trade_qty hd
    unfold nextPosition at h
    simp only [hnamed, Bool.false_eq_true, if_false, hterms, joinedAsset, hasset held rfl, if_true,
      Except.ok.injEq] at h
    subst h
    refine ⟨?_, rfl, rfl, ?_⟩
    · by_cases hz : held.signedQty + fill.delta = 0
      · -- closed in full: nothing is held and nothing is carried
        have hlot : (mk held.signedQty v).Sound := ⟨fun h0 => absurd h0 hheld.qty, fun _ => hheld.entry v hv⟩
        have hsound := (hlot.trade hd hp).1 (hsum.trans hz)
        simp only [hz, if_true, lotOf]
        rw [hz] at hsum
        generalize (mk held.signedQty v).trade fill.delta p = t at hsum hsound
        obtain ⟨⟨q, c⟩, r⟩ := t
        simp only at hsum hsound
        rw [hsum, hsound]
        rfl
      · simp only [hz, if_false, lotOf, Option.map_some]
        rw [← hsum]
    · intro row hrow
      split at hrow
      · cases hrow
      · cases hrow
        rfl

end

/-- One accepted fill of the sleeve, as the venue priced it, and what it realized. -/
structure Trade where
  side : Side
  (qty px : Exact)
  realized : RealizedValue

def Trade.signed (t : Trade) : Exact :=
  match t.side with
  | .buy => t.qty
  | .sell => -t.qty

theorem signed_ne_zero {t : Trade} (h : 0 < t.qty) : t.signed ≠ 0 := by
  unfold Trade.signed
  cases t.side with
  | buy => exact h.ne'
  | sell => exact neg_ne_zero.mpr h.ne'

/-- The inventories a process works on, with the accepted fills of one sleeve and
symbol: it starts without a position there, and then takes priced fills of it in
one asset, and anything at all elsewhere. -/
inductive History (f64 : Exact → Option ℚ) (key : PositionKey) (asset : AssetId) :
    Inventory → List Trade → Prop where
  | flat {inv : Inventory} (h : inv.position key = none) : History f64 key asset inv []
  | filled {inv next : Inventory} {trades : List Trade} {fill : InventoryFill} {px : Exact} {realized : RealizedValue}
      (run : History f64 key asset inv trades) (hkey : fill.key = key) (hpx : fill.px = some px)
      (hasset : fill.settlementAsset = asset) (h : inv.fill f64 fill = .ok (realized, next)) :
      History f64 key asset next (trades ++ [⟨fill.side, fill.qty, px, realized⟩])
  | elsewhere {inv next : Inventory} {trades : List Trade} {fill : InventoryFill} {realized : RealizedValue}
      (run : History f64 key asset inv trades) (hkey : fill.key ≠ key) (h : inv.fill f64 fill = .ok (realized, next)) :
      History f64 key asset next trades
  | removed {inv : Inventory} {trades : List Trade} {other : PositionKey}
      (run : History f64 key asset inv trades) (hkey : other ≠ key) : History f64 key asset (inv.remove other) trades
  | tightened {inv : Inventory} {trades : List Trade} (run : History f64 key asset inv trades)
      (other : PositionKey) (side : Side) (stop : Exact) :
      History f64 key asset (inv.tightenStop other side stop) trades

/-- The trades as the accounting reads them: signed quantity and price. -/
def flows (trades : List Trade) : List (Exact × Exact) := trades.map fun t => (t.signed, t.px)

/-- The prices that entered the position since it was last flat or changed sign. -/
def enteredPrices (trades : List Trade) : List Exact := (Books.run (flows trades)).prices

def sellValue (trades : List Trade) : Exact :=
  ((trades.filter (fun t => t.side = .sell)).map (fun t => t.qty * t.px)).sum

def buyValue (trades : List Trade) : Exact :=
  ((trades.filter (fun t => t.side = .buy)).map (fun t => t.qty * t.px)).sum

/-- The entry value a sleeve carries, with the sign of its position. -/
def carried : Option PortfolioPosition → Exact
  | none => 0
  | some row => signum row.signedQty * row.entryValue.getD 0

variable {f64 : Exact → Option ℚ} {key : PositionKey} {asset : AssetId} {inv : Inventory}
  {trades : List Trade}

variable (key asset inv trades) in
/-- What the books of the trades say of the sleeve's row, and of each fill. -/
structure Booked : Prop where
  lot : lotOf (inv.position key) = some (Books.run (flows trades)).lot
  asset_eq : ∀ row, inv.position key = some row → row.settlementAsset = asset
  positive : ∀ t ∈ trades, 0 < t.qty ∧ 0 < t.px
  realized : ∃ amounts : List Exact, trades.map (fun t => t.realized.amount) = amounts.map some ∧
    amounts.sum = (Books.run (flows trades)).realized
  realized_asset : ∀ t ∈ trades, t.realized.asset = asset

theorem Booked.of_position_eq (hb : Booked key asset inv trades) {next : Inventory}
    (h : next.position key = inv.position key) : Booked key asset next trades := by
  refine ⟨?_, ?_, hb.positive, hb.realized, hb.realized_asset⟩
  · rw [h]
    exact hb.lot
  · rw [h]
    exact hb.asset_eq

theorem Booked.fill (hb : Booked key asset inv trades) {next : Inventory} {fill : InventoryFill} {px : Exact}
    {realized : RealizedValue} (hkey : fill.key = key) (hpx : fill.px = some px) (hasset : fill.settlementAsset = asset)
    (h : inv.fill f64 fill = .ok (realized, next)) :
    Booked key asset next (trades ++ [⟨fill.side, fill.qty, px, realized⟩]) := by
  obtain ⟨row, hcheck, hrow, _⟩ := fill_ok h
  obtain ⟨hpos, _, hnext, _⟩ := checkFill_ok.mp hcheck
  rw [hkey] at hrow hnext
  have hp := hpos.px px hpx
  obtain ⟨hlot, hamount, hrasset, hrows⟩ := nextPosition_lot hb.lot (fun row hr => (inv.rows_ok key row hr).2)
    hpos.qty hp hpx (fun row hr => (hb.asset_eq row hr).trans hasset.symm) hnext
  have hflows : flows (trades ++ [⟨fill.side, fill.qty, px, realized⟩]) = flows trades ++ [(fill.delta, px)] := by
    rw [flows, map_append]
    rfl
  obtain ⟨amounts, hamounts, hsum⟩ := hb.realized
  have hrun := Books.run_concat (flows trades) fill.delta px
  refine ⟨?_, ?_, ?_, ⟨amounts ++ [((Books.run (flows trades)).lot.trade fill.delta px).2], ?_, ?_⟩, ?_⟩
  · rw [hrow, hlot, hflows, hrun]
    rfl
  · intro r hr
    rw [hrow] at hr
    rw [hrows r hr, hasset]
  · intro t ht
    rcases mem_append.mp ht with ht | ht
    · exact hb.positive t ht
    · rw [mem_singleton.mp ht]
      exact ⟨hpos.qty, hp⟩
  · rw [map_append, map_append, hamounts]
    simp only [map_cons, map_nil]
    rw [hamount]
  · rw [hflows, hrun, sum_append, hsum]
    simp only [sum_cons, sum_nil, add_zero]
    rfl
  · intro t ht
    rcases mem_append.mp ht with ht | ht
    · exact hb.realized_asset t ht
    · rw [mem_singleton.mp ht]
      exact hrasset.trans hasset

theorem History.booked (h : History f64 key asset inv trades) : Booked key asset inv trades := by
  induction h with
  | flat h =>
    refine ⟨by rw [h]; rfl, ?_, by simp, ⟨[], rfl, rfl⟩, by simp⟩
    intro row hrow
    rw [h] at hrow
    cases hrow
  | filled _ hkey hpx hasset h ih => exact ih.fill hkey hpx hasset h
  | elsewhere _ hkey h ih =>
    obtain ⟨_, _, _, hothers⟩ := fill_ok h
    exact ih.of_position_eq (hothers key (Ne.symm hkey))
  | removed _ hkey ih => exact ih.of_position_eq (AList.lookup_erase_ne (Ne.symm hkey))
  | @tightened inv _ _ other side stop ih =>
    obtain hsame | ⟨row, hrow, -, hnew⟩ := inv.tightenStop_cases other key side stop
    · exact ih.of_position_eq hsame
    · refine ⟨?_, ?_, ih.positive, ih.realized, ih.realized_asset⟩
      · have := ih.lot
        rw [hrow] at this
        rw [hnew]
        exact this
      · intro r hr
        rw [hnew] at hr
        cases hr
        exact ih.asset_eq row hrow

theorem sum_flows (trades : List Trade) :
    ((flows trades).map (fun t => -(t.1 * t.2))).sum = sellValue trades - buyValue trades := by
  induction trades with
  | nil => simp [flows, sellValue, buyValue]
  | cons t trades ih =>
    have hflows : flows (t :: trades) = (t.signed, t.px) :: flows trades := rfl
    rw [hflows, map_cons, sum_cons, ih]
    cases hs : t.side with
    | buy =>
      simp only [sellValue, buyValue, filter_cons, hs, Trade.signed, decide_true, decide_false, if_true,
        map_cons, sum_cons, reduceCtorEq, Bool.false_eq_true, if_false]
      ring
    | sell =>
      simp only [sellValue, buyValue, filter_cons, hs, Trade.signed, decide_true, decide_false, if_true,
        map_cons, sum_cons, reduceCtorEq, Bool.false_eq_true, if_false]
      ring

theorem carried_eq {prior : Option PortfolioPosition} {l : Lot Exact} (h : lotOf prior = some l) :
    carried prior = l.signedCost ∧ quantityOf prior = l.qty := by
  cases prior with
  | none =>
    cases h
    exact ⟨(signedCost_zero rfl).symm, rfl⟩
  | some row =>
    obtain ⟨v, hv, rfl⟩ : ∃ v, row.entryValue = some v ∧ ⟨row.signedQty, v⟩ = l := by
      simpa [lotOf] using h
    refine ⟨?_, rfl⟩
    show signum row.signedQty * row.entryValue.getD 0 = _
    unfold signum signedCost
    rw [hv]
    split
    · simp
    · split <;> simp

/-- **Profit and loss of a sleeve.** After any priced fills of a sleeve in one symbol and asset, it has
realized what it sold less what it bought plus what it still carries; its position is the sum of its
fills; and the average cost of a held position lies between the lowest and the highest price that
entered it. -/
theorem profitAndLoss (h : History f64 key asset inv trades) :
    (∃ amounts : List Exact, trades.map (fun t => t.realized.amount) = amounts.map some ∧
      amounts.sum = sellValue trades - buyValue trades + carried (inv.position key)) ∧
    (∀ t ∈ trades, t.realized.asset = asset) ∧
    quantityOf (inv.position key) = (trades.map Trade.signed).sum ∧
    ∀ row, inv.position key = some row → ∃ v, row.entryValue = some v ∧ 0 < v ∧
      ∃ lo ∈ enteredPrices trades, ∃ hi ∈ enteredPrices trades, (∀ p ∈ enteredPrices trades, lo ≤ p ∧ p ≤ hi) ∧
        lo ≤ v / |row.signedQty| ∧ v / |row.signedQty| ≤ hi := by
  have hb := h.booked
  have hbal : (Books.run (flows trades)).Balanced (flows trades) := by
    apply Books.run_balanced
    intro t ht
    obtain ⟨t, hmem, rfl⟩ := mem_map.mp ht
    obtain ⟨hq, hp⟩ := hb.positive t hmem
    exact ⟨signed_ne_zero hq, hp⟩
  obtain ⟨hcarried, hqty⟩ := carried_eq hb.lot
  obtain ⟨amounts, hamounts, hsum⟩ := hb.realized
  refine ⟨⟨amounts, hamounts, ?_⟩, hb.realized_asset, ?_, ?_⟩
  · rw [hsum, hbal.realized, sum_flows, hcarried]
  · rw [hqty, hbal.qty, flows, map_map]
    rfl
  · intro row hrow
    have hheld := hb.lot
    rw [hrow] at hheld
    obtain ⟨v, hv, hl⟩ : ∃ v, row.entryValue = some v ∧ ⟨row.signedQty, v⟩ = (Books.run (flows trades)).lot := by
      simpa [lotOf] using hheld
    have hvalid := (inv.rows_ok key row hrow).2
    have hbetween := hbal.between
    rw [← hl] at hbetween
    exact ⟨v, hv, hvalid.entry v hv, hbetween.average hvalid.qty⟩

def usdtFill (side : Side) (qty px : Exact) : InventoryFill :=
  { strategy := 0, symbol := 0, side, qty, px := some px, stop := none, settlementAsset := .named "USDT" }

def boughtTwo : Inventory := Inventory.empty.afterFill some (usdtFill .buy 2 10)

/-- Two bought at 10 and three sold at 12: 4 realized, and a short of one carried at 12. -/
theorem profitAndLoss_flip :
    History some (0, 0) (.named "USDT") (boughtTwo.afterFill some (usdtFill .sell 3 12))
      [⟨.buy, 2, 10, ⟨some 0, .named "USDT"⟩⟩, ⟨.sell, 3, 12, ⟨some 4, .named "USDT"⟩⟩] ∧
    quantityOf ((boughtTwo.afterFill some (usdtFill .sell 3 12)).position (0, 0)) = -1 := by
  have hbuy : empty.fill some (usdtFill .buy 2 10) = .ok (⟨some 0, .named "USDT"⟩, boughtTwo) :=
    fill_afterFill (by decide +kernel)
  have hsell : boughtTwo.fill some (usdtFill .sell 3 12) =
      .ok (⟨some 4, .named "USDT"⟩, boughtTwo.afterFill some (usdtFill .sell 3 12)) :=
    fill_afterFill (by decide +kernel)
  have hfirst := @History.filled some (0, 0) (.named "USDT") empty _ [] (usdtFill .buy 2 10) 10 _
    (.flat rfl) rfl rfl rfl hbuy
  have hrun := @History.filled some (0, 0) (.named "USDT") boughtTwo _ _ (usdtFill .sell 3 12) 12 _
    hfirst rfl rfl rfl hsell
  refine ⟨hrun, ?_⟩
  rw [(profitAndLoss hrun).2.2.1]
  decide +kernel

end LiquidityMigration.Portfolio
