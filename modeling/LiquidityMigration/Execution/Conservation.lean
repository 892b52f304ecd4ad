import LiquidityMigration.Execution.RoundTrip

/- Closed trips are exact and conserve money. A `UsdtFill` carries exact amounts and a fee in USDT. What a part of it
   does to a lot is `fold_eq`, what a whole fill does `take_away`, `take_to_zero` and `take_through`: the part that
   closes and the part that opens share quantity, value and fee in proportion. So over a run the trips and the open
   lot add up to what was sold less what was bought and charged. -/
namespace LiquidityMigration.Execution
open Numeric Checks Portfolio Fill List Lot
open Option hiding min_eq_right

def KeepsSign (b : Binary64) : Prop := ∀ x v, 0 < x → b.nearest x = some v → 0 ≤ v

/-- A fill that carries exact amounts in USDT and a fee in USDT, and what an allocation
charges for it, if any, is the same. -/
structure UsdtFill where
  (sleeve symbol : String)
  fill : Fill
  exactQty : Option Exact
  economics : Option AllocationEconomics
  amounts : ExecutionAmounts
  fee : AssetAmount
  carried : fill.amounts = some amounts
  settled : isUsdt amounts.settlementAsset = true
  charged : amounts.fee = some fee
  stated : Fill.feeStated fee = true
  allocated : ∀ e, economics = some e → e.quantity = amounts.quantity.value ∧
    e.consideration = amounts.price.value * amounts.quantity.value ∧ e.fee = some fee.amount.value

namespace UsdtFill

variable (f : UsdtFill)

def key : LotKey := (f.sleeve, f.symbol)

def quantity : Exact := f.amounts.quantity.value

def price : Exact := f.amounts.price.value

def value : Exact := f.price * f.quantity

def charge : Exact := f.fee.amount.value

def signed : Exact := f.fill.signed f.quantity

/-- The fill is accepted: its amounts are valid and are those it is reported with. -/
def Accepted (b : Binary64) : Prop := checkAmounts b f.fill f.exactQty = .ok ()

/-- `on_fill_with_economics` for the fill. -/
def settle (b : Binary64) (lots : Lots) : Except String Lots :=
  lots.onFillWithEconomics b f.sleeve f.symbol f.fill f.exactQty f.economics

end UsdtFill

def onFills (b : Binary64) (fills : List UsdtFill) : Except String Lots :=
  fills.foldlM (fun lots f => f.settle b lots) {}

/-! ## One fill and one lot -/

section fold
variable {b : Binary64} {f : UsdtFill} {lot : Lot} {q : Exact} {exact : Bool} (fill : Fill)

theorem signed_eq_mul (q : Exact) : fill.signed q = (if fill.side = .buy then 1 else -1) * q := by
  unfold signed
  cases fill.side <;> simp

theorem abs_signed (hq : 0 ≤ q) : |fill.signed q| = q := by
  unfold signed
  cases fill.side <;> simp [abs_of_nonneg hq]

theorem signed_neg_iff_sell {fill : Fill} (hq : 0 < q) : fill.signed q < 0 ↔ fill.side = .sell := by
  unfold signed
  cases fill.side <;> simp [hq, hq.le]

def folded (lot : Lot) (f : UsdtFill) (q : Exact) (exact : Bool) : Lot :=
  let next := (lot.opened f.fill (f.fill.signed q)).entered q (f.fill.signed q) (f.price * q)
  { next with
    exactQuantity := lot.exactQuantity || exact
    signedQty := lot.signedQty + f.fill.signed q
    cash := lot.cash - f.price * f.fill.signed q
    fills := lot.fills + 1
    usdt := lot.usdt
    fees := lot.fees.map (fun fees => fees + f.charge * (q / f.quantity)) }

/-- What a lot holds, apart from the clock and the legs of its trip. -/
def Lot.books (lot : Lot) : Exact × Bool × Exact × Option Exact × Bool × Nat :=
  (lot.signedQty, lot.exactQuantity, lot.cash, lot.fees, lot.usdt, lot.fills)

@[simp] theorem books_opened (s : Exact) : (lot.opened fill s).books = lot.books := by
  unfold Lot.opened
  split <;> rfl

@[simp] theorem books_entered (s v : Exact) : (lot.entered q s v).books = lot.books := by
  unfold Lot.entered
  split <;> rfl

theorem value_eq (hq : f.quantity ≠ 0) : f.fill.value f.economics q = .ok (f.price * q) := by
  have hprice : f.fill.price = .ok f.price := by
    unfold price
    rw [f.carried]
    rfl
  unfold value
  rw [hprice]
  cases he : f.economics with
  | none => rfl
  | some e =>
    obtain ⟨hquantity, hvalue, -⟩ := f.allocated e he
    have hne : e.quantity ≠ 0 := by rw [hquantity]; exact hq
    show (checkedDiv q e.quantity).mapError ExactError.toString >>= _ = _
    rw [checkedDiv, if_neg hne, hvalue, hquantity]
    show Except.ok (f.price * f.quantity * (q / f.quantity)) = _
    congr 1
    field_simp

theorem feeTerms_eq : f.fill.feeTerms f.economics = .ok (some f.charge, f.quantity) := by
  unfold feeTerms
  rw [f.carried]
  cases he : f.economics with
  | none =>
    simp only [f.charged, filter_some, f.stated, if_true, map_some]
    rfl
  | some e =>
    obtain ⟨hquantity, -, hfee⟩ := f.allocated e he
    simp only [f.charged, any_some, f.stated, if_true, hfee, hquantity]
    rfl

theorem settlesUsdt_eq : f.fill.settlesUsdt = true := by
  unfold settlesUsdt
  rw [f.carried]
  exact f.settled

theorem addFee_eq {fees : Option Exact} (hquantity : f.quantity ≠ 0) :
    addFee fees (some f.charge) q f.quantity = .ok (fees.map (fun fees => fees + f.charge * (q / f.quantity))) := by
  cases fees with
  | none => rfl
  | some total =>
    show (checkedDiv q f.quantity).mapError ExactError.toString >>= _ = _
    rw [checkedDiv, if_neg hquantity]
    rfl

theorem cash_eq (p : Exact) (hq : 0 < q) : (if 0 < fill.signed q then -(p * q) else p * q) = -(p * fill.signed q) := by
  unfold signed
  cases fill.side with
  | buy => simp [hq]
  | sell => simp [hq.le]

theorem fold_eq (hquantity : f.quantity ≠ 0) (hq : 0 < q) :
    lot.fold f.fill q exact f.economics = .ok (folded lot f q exact) := by
  have hbooks : ((lot.opened f.fill (f.fill.signed q)).entered q (f.fill.signed q) (f.price * q)).books =
      lot.books := by
    rw [books_entered, books_opened]
  simp only [books, Prod.mk.injEq] at hbooks
  obtain ⟨hsigned, hexact, hcash, hfees, husdt, hfills⟩ := hbooks
  unfold fold
  simp only [value_eq hquantity, feeTerms_eq, bind, Except.bind, addFee_eq hquantity]
  rw [hsigned, hexact, hcash, hfees, husdt, hfills, settlesUsdt_eq, cash_eq f.fill f.price hq, Bool.and_true,
    ← sub_eq_add_neg]
  rfl

end fold

/-! ## What a lot of exact fills keeps -/

/-- The lot is in USDT with its fees known, and while it is open its basis and side are. -/
structure Lot.Kept (lot : Lot) : Prop where
  usdt : lot.usdt = true
  fees : lot.fees.isSome
  legs : 0 ≤ lot.inQty ∧ 0 ≤ lot.inValue ∧ 0 ≤ lot.outQty
  basis : lot.signedQty ≠ 0 → lot.basisKnown = true ∧ (lot.held < 0 ↔ lot.signedQty < 0)

theorem kept_new : Lot.Kept {} := ⟨rfl, rfl, by decide, fun h => absurd rfl h⟩

section kept
variable {b : Binary64} {f : UsdtFill} {lot : Lot} {q : Exact} {exact : Bool}

theorem signed_ne_zero (fill : Fill) (hq : 0 < q) : fill.signed q ≠ 0 := by
  rw [← abs_pos, abs_signed fill hq.le]
  exact hq

theorem mul_neg_iff_sides {x y : Exact} (hy : y ≠ 0) : x * y < 0 ↔ x ≠ 0 ∧ ¬ (x < 0 ↔ y < 0) := by
  rw [mul_neg_iff]
  grind

theorem folded_in (hk : lot.Kept) (hq : 0 < q) (hprice : 0 < f.price)
    (hdir : lot.signedQty = 0 ∨ 0 < lot.signedQty * f.fill.signed q) : (folded lot f q exact).Kept := by
  have hs := signed_ne_zero f.fill hq
  obtain ⟨hin, hval, hout⟩ := hk.legs
  have hvalue : 0 < f.price * q := mul_pos hprice hq
  -- the side the lot is held on after `opened` is that of the part
  have hheld : (lot.opened f.fill (f.fill.signed q)).held < 0 ↔ f.fill.signed q < 0 := by
    unfold opened
    split
    · split <;> simp_all
    · next hne =>
      rw [(hk.basis hne).2]
      exact neg_iff_neg_of_mul_pos (hdir.resolve_left hne)
  have hlegs : (lot.opened f.fill (f.fill.signed q)).inQty = lot.inQty ∧
      (lot.opened f.fill (f.fill.signed q)).inValue = lot.inValue ∧
      (lot.opened f.fill (f.fill.signed q)).outQty = lot.outQty := by
    unfold opened
    split <;> exact ⟨rfl, rfl, rfl⟩
  have hpriced : (lot.opened f.fill (f.fill.signed q)).priced = true := by
    unfold opened
    split
    · rfl
    · next hne =>
      have h := (hk.basis hne).1
      simp only [basisKnown, decide_eq_true_eq] at h
      exact h.1
  have henter : (lot.opened f.fill (f.fill.signed q)).entered q (f.fill.signed q) (f.price * q) =
      { lot.opened f.fill (f.fill.signed q) with
        inQty := lot.inQty + q, inValue := lot.inValue + f.price * q } := by
    rw [entered, if_pos (by simp [hheld]), hlegs.1, hlegs.2.1]
  have hsum : lot.signedQty + f.fill.signed q < 0 ↔ f.fill.signed q < 0 := by
    rcases hdir with h | h
    · rw [h, zero_add]
    · apply neg_iff_neg_of_mul_pos
      rw [add_mul]
      exact add_pos h (mul_self_pos.mpr hs)
  refine ⟨hk.usdt, ?_, ?_, ?_⟩
  · show (lot.fees.map _).isSome
    rw [isSome_map]
    exact hk.fees
  · simp only [folded, henter, hlegs.2.2]
    exact ⟨by linarith, by linarith, hout⟩
  · intro _
    simp only [folded, henter, basisKnown, decide_eq_true_eq]
    exact ⟨⟨hpriced, by linarith, by linarith⟩, by rw [hheld, hsum]⟩

theorem folded_out (exact : Bool) (hk : lot.Kept) (hq : 0 < q) (hdir : lot.signedQty * f.fill.signed q < 0) :
    (folded lot f q exact).basisKnown = true ∧ 0 < (folded lot f q exact).outQty ∧
      ((folded lot f q exact).held < 0 ↔ lot.signedQty < 0) := by
  obtain ⟨hne, hsides⟩ := (mul_neg_iff_sides (signed_ne_zero f.fill hq)).mp hdir
  obtain ⟨hbasis, hheld⟩ := hk.basis hne
  have hcross : ¬ decide (f.fill.signed q < 0) = decide (lot.held < 0) := by
    rw [decide_eq_decide, hheld]
    exact fun h => hsides h.symm
  have henter : (lot.opened f.fill (f.fill.signed q)).entered q (f.fill.signed q) (f.price * q) =
      { lot with outQty := lot.outQty + q, outValue := lot.outValue + f.price * q } := by
    rw [opened, if_neg hne, entered, if_neg hcross]
  simp only [folded, henter]
  exact ⟨hbasis, by linarith [hk.legs.2.2], hheld⟩

/-- The trip of a sleeve in a symbol that came to `net`. -/
def ClosedTrade.IsTrip (t : ClosedTrade) (key : LotKey) (net : Exact) : Prop :=
  (t.sleeve, t.symbol) = key ∧ ∃ trip, t.roundTrip = some trip ∧ trip.netUsdtExact = net

theorem closed_eq (lot : Lot) {fees : Exact} (key : LotKey) (ms : Int) (husdt : lot.usdt = true)
    (hfees : lot.fees = some fees) (hbasis : lot.basisKnown = true) (hout : 0 < lot.outQty) :
    ∃ t, lot.closed b key.1 key.2 ms = .ok t ∧ t.IsTrip key (lot.cash - fees) := by
  have hin : lot.inQty ≠ 0 ∧ lot.inValue ≠ 0 := by
    simp only [basisKnown, decide_eq_true_eq] at hbasis
    exact ⟨hbasis.2.1.ne', hbasis.2.2.ne'⟩
  have hratio : ∀ x y : Exact, y ≠ 0 → ratio b x y = .ok (b.report (x / y)) := by
    intro x y hy
    rw [ratio, checkedDiv, if_neg hy]
    rfl
  unfold closed roundTrip
  simp only [hfees, hbasis, husdt, Bool.and_self, filter_some, if_true, hratio _ _ hin.1, hratio _ _ hin.2,
    hratio _ _ hout.ne', bind, Except.bind]
  exact ⟨_, rfl, rfl, _, rfl, rfl⟩

/-! ## A fill meets a lot -/

theorem legacyFlatAfter_eq : lot.legacyFlatAfter b f.fill f.quantity = false := by
  unfold legacyFlatAfter
  rw [f.carried]
  rfl

theorem closing_of_fill (fill : Fill) (hq : 0 < q) :
    lot.closing fill q = if lot.signedQty * fill.signed q < 0 then min q |lot.signedQty| else 0 := by
  unfold closing
  congr 1
  rw [eq_iff_iff, ne_eq (decide _), decide_eq_decide, ← signed_neg_iff_sell hq]
  exact (mul_neg_iff_sides (signed_ne_zero fill hq)).symm

theorem closing_eq (hq : 0 < f.quantity) :
    lot.closing f.fill f.quantity = if lot.signedQty * f.signed < 0 then min f.quantity |lot.signedQty| else 0 :=
  closing_of_fill f.fill hq

theorem signed_abs_of_opposite {h : Exact} (fill : Fill) (hq : 0 < q) (hdir : h * fill.signed q < 0) :
    fill.signed |h| = -h := by
  unfold signed at hdir ⊢
  cases hside : fill.side with
  | buy =>
    rw [hside] at hdir
    have : h < 0 := neg_of_mul_neg_left hdir hq.le
    simp only [abs_of_neg this]
  | sell =>
    rw [hside] at hdir
    have : 0 < h := by
      simp only [mul_neg, neg_lt_zero] at hdir
      exact pos_of_mul_pos_left hdir hq.le
    simp only [abs_of_pos this]

theorem abs_signed_quantity (hq : 0 < f.quantity) : |f.signed| = f.quantity := abs_signed f.fill hq.le

theorem take_away (hk : lot.Kept) (hq : 0 < f.quantity) (hprice : 0 < f.price)
    (haway : lot.signedQty = 0 ∨ 0 < lot.signedQty * (lot.signedQty + f.signed)) :
    lot.take b f.key f.fill f.quantity exact f.economics = .ok (folded lot f f.quantity exact, none) ∧
      (folded lot f f.quantity exact).Kept := by
  unfold Lot.take Lot.takeClosing
  simp only [legacyFlatAfter_eq, Bool.or_false, Bool.false_eq_true, not_false_eq_true, and_true]
  by_cases hdir : lot.signedQty * f.signed < 0
  · -- the fill is smaller than the lot it reduces
    have hpos := haway.resolve_left (left_ne_zero_of_mul hdir.ne)
    have hless : f.quantity < |lot.signedQty| := by
      rw [← abs_signed_quantity hq]
      rcases mul_neg_iff.mp hdir with ⟨h, h'⟩ | ⟨h, h'⟩
      · rw [abs_of_pos h, abs_of_neg h']
        linarith [pos_of_mul_pos_right hpos h.le]
      · rw [abs_of_neg h, abs_of_pos h']
        linarith [neg_of_mul_pos_right hpos h.le]
    have hclosing : lot.closing f.fill f.quantity = f.quantity := by
      rw [closing_eq hq, if_pos hdir, min_eq_left hless.le]
    have hleft : (folded lot f f.quantity exact).signedQty ≠ 0 := right_ne_zero_of_mul hpos.ne'
    obtain ⟨hbasis, hout, hheld⟩ := folded_out exact hk hq hdir
    rw [hclosing, if_pos hq, fold_eq hq.ne' hq, sub_self]
    simp only [bind, Except.bind, flat, hleft, decide_false, Bool.false_eq_true, if_false, lt_irrefl, true_and]
    refine ⟨hk.usdt, ?_, ?_, ?_⟩
    · show (lot.fees.map _).isSome
      rw [isSome_map]
      exact hk.fees
    · simp only [basisKnown, decide_eq_true_eq] at hbasis
      exact ⟨hbasis.2.1.le, hbasis.2.2.le, hout.le⟩
    · intro _
      refine ⟨hbasis, hheld.trans ?_⟩
      exact neg_iff_neg_of_mul_pos hpos
  · -- the fill adds to the lot, or opens it
    have hclosing : lot.closing f.fill f.quantity = 0 := by rw [closing_eq hq, if_neg hdir]
    have hin : lot.signedQty = 0 ∨ 0 < lot.signedQty * f.fill.signed f.quantity := by
      by_cases h : lot.signedQty = 0
      · exact .inl h
      · refine .inr (lt_of_le_of_ne (not_lt.mp hdir) ?_)
        exact (mul_ne_zero h (signed_ne_zero f.fill hq)).symm
    rw [hclosing, if_neg (lt_irrefl _), sub_zero]
    simp only [bind, Except.bind, if_pos hq, fold_eq hq.ne' hq, true_and]
    exact folded_in hk hq hprice hin

theorem take_to_zero {fees : Exact} (hk : lot.Kept) (hq : 0 < f.quantity) (hfees : lot.fees = some fees)
    (hne : lot.signedQty ≠ 0) (hzero : lot.signedQty + f.signed = 0) :
    ∃ t, lot.take b f.key f.fill f.quantity exact f.economics = .ok ({}, some t) ∧
      t.IsTrip f.key (lot.cash - f.price * f.signed - (fees + f.charge)) := by
  have hsigned : f.signed = -lot.signedQty := by linarith
  have hdir : lot.signedQty * f.signed < 0 := by
    rw [hsigned, mul_neg, neg_lt_zero]
    exact mul_self_pos.mpr hne
  have hclosing : lot.closing f.fill f.quantity = f.quantity := by
    rw [closing_eq hq, if_pos hdir, ← abs_signed_quantity hq, hsigned, abs_neg, min_self]
  obtain ⟨hbasis, hout, -⟩ := folded_out exact hk hq hdir
  have hnext : (folded lot f f.quantity exact).fees = some (fees + f.charge) := by
    simp only [folded, hfees, map_some, div_self hq.ne', mul_one]
  obtain ⟨t, ht, htrip⟩ := closed_eq (b := b) (folded lot f f.quantity exact) f.key f.fill.venueTsMs
    hk.usdt hnext hbasis hout
  refine ⟨t, ?_, htrip⟩
  have hflat : (folded lot f f.quantity exact).flat = true := decide_eq_true hzero
  unfold Lot.take Lot.takeClosing
  rw [hclosing, if_pos hq, sub_self, fold_eq hq.ne' hq]
  simp only [bind, Except.bind, hflat, Bool.true_or, if_true, ht, lt_irrefl, false_and, if_false]

/-- A fill through zero closes one trip with a part of it and opens the next with the rest. -/
theorem take_through (exact : Bool) {fees : Exact} (hk : lot.Kept) (hq : 0 < f.quantity) (hprice : 0 < f.price)
    (hfees : lot.fees = some fees) (hthrough : lot.signedQty * (lot.signedQty + f.signed) < 0) :
    ∃ t, lot.take b f.key f.fill f.quantity exact f.economics =
        .ok (folded {} f |lot.signedQty + f.signed| exact, some t) ∧
      t.IsTrip f.key (lot.cash + f.price * lot.signedQty - (fees + f.charge * (|lot.signedQty| / f.quantity))) ∧
      (folded {} f |lot.signedQty + f.signed| exact).Kept ∧
      |lot.signedQty| + |lot.signedQty + f.signed| = f.quantity ∧ f.fill.signed |lot.signedQty| = -lot.signedQty ∧
      f.fill.signed |lot.signedQty + f.signed| = lot.signedQty + f.signed := by
  have hne : lot.signedQty ≠ 0 := left_ne_zero_of_mul hthrough.ne
  have hnext : lot.signedQty + f.signed ≠ 0 := right_ne_zero_of_mul hthrough.ne
  have hdir : lot.signedQty * f.signed < 0 := by
    have h := mul_self_nonneg lot.signedQty
    rw [mul_add] at hthrough
    linarith
  have hsum : |lot.signedQty| + |lot.signedQty + f.signed| = f.quantity := by
    rw [← abs_signed_quantity hq]
    rcases mul_neg_iff.mp hthrough with ⟨h, h'⟩ | ⟨h, h'⟩
    · rw [abs_of_pos h, abs_of_neg h', abs_of_neg (by linarith : f.signed < 0)]
      ring
    · rw [abs_of_neg h, abs_of_pos h', abs_of_pos (by linarith : 0 < f.signed)]
      ring
  have hout : 0 < |lot.signedQty| := abs_pos.mpr hne
  have hin : 0 < |lot.signedQty + f.signed| := abs_pos.mpr hnext
  have hclosing : lot.closing f.fill f.quantity = |lot.signedQty| := by
    rw [closing_eq hq, if_pos hdir, min_eq_right (by linarith)]
  have hsigned : f.fill.signed |lot.signedQty| = -lot.signedQty := signed_abs_of_opposite f.fill hq hdir
  have hopen : f.fill.signed |lot.signedQty + f.signed| = lot.signedQty + f.signed := by
    have h : f.fill.signed f.quantity = f.fill.signed |lot.signedQty| + f.fill.signed |lot.signedQty + f.signed| := by
      rw [signed_eq_mul, signed_eq_mul, signed_eq_mul, ← mul_add, hsum]
    have h' : f.fill.signed f.quantity = f.signed := rfl
    linarith
  obtain ⟨hbasis, houtQty, -⟩ := folded_out (q := |lot.signedQty|) (f := f) exact hk hout
    (by rw [hsigned, mul_neg, neg_lt_zero]; exact mul_self_pos.mpr hne)
  have hfolded : (folded lot f |lot.signedQty| exact).fees =
      some (fees + f.charge * (|lot.signedQty| / f.quantity)) := by
    simp only [folded, hfees, map_some]
  obtain ⟨t, ht, htrip⟩ := closed_eq (b := b) (folded lot f |lot.signedQty| exact) f.key
    f.fill.venueTsMs hk.usdt hfolded hbasis houtQty
  refine ⟨t, ?_, ?_, folded_in kept_new hin hprice (.inl rfl), hsum, hsigned, hopen⟩
  · have hflat : (folded lot f |lot.signedQty| exact).flat = true := by
      refine decide_eq_true ?_
      show lot.signedQty + f.fill.signed |lot.signedQty| = 0
      rw [hsigned, add_neg_cancel]
    have hopening : f.quantity - |lot.signedQty| = |lot.signedQty + f.signed| := by linarith
    unfold Lot.take Lot.takeClosing
    rw [hclosing, if_pos hout, fold_eq hq.ne' hout, hopening]
    simp only [bind, Except.bind, hflat, Bool.true_or, if_true, ht, hin, legacyFlatAfter_eq, Bool.false_eq_true,
      not_false_eq_true, and_self, fold_eq hq.ne' hin]
  · convert htrip using 2
    show lot.cash + f.price * lot.signedQty = lot.cash - f.price * f.fill.signed |lot.signedQty|
    rw [hsigned]
    ring

end kept

open ClosedTrade

/-! ## The lots after a fill -/

section settle
variable {b : Binary64} {f : UsdtFill} {lots lots' : Lots} {key : LotKey}

/-- The lots with one of them replaced, and the trip that was closed. -/
def Lots.put (lots : Lots) (key : LotKey) (next : Lot) (trade : Option ClosedTrade) : Lots where
  opens := if next.signedQty = 0 then lots.opens.erase key else lots.opens.insert key next
  closed := lots.closed ++ trade.toList

variable {next : Lot} {trade : Option ClosedTrade}

theorem lot_put (h : next.signedQty = 0 → next = {}) : (lots.put key next trade).lot key = next := by
  unfold Lots.put Lots.lot
  split
  · next hzero =>
    rw [AList.lookup_erase, h hzero]
    rfl
  · rw [AList.lookup_insert]
    rfl

theorem lot_put_of_ne {other : LotKey} (h : other ≠ key) :
    (lots.put key next trade).lot other = lots.lot other := by
  unfold Lots.put Lots.lot
  split
  · rw [AList.lookup_erase_ne h]
  · rw [AList.lookup_insert_ne h]

theorem projectsTo_positive {x : Exact} {v : F64} (hb : KeepsSign b) (hx : 0 < x) (h : b.projectsTo x v = .ok ()) :
    positive v = true := by
  simp only [Binary64.projectsTo, ok_iff] at h
  obtain ⟨value, hvalue, rfl⟩ := h
  unfold toF64 at hvalue
  split at hvalue
  · next rounded hrounded =>
    split at hvalue
    · next hne =>
      cases hvalue
      have hnonneg := hb x _ hx hrounded
      exact decide_eq_true (lt_of_le_of_ne hnonneg (hne.resolve_right hx.ne').symm)
    · cases hvalue
  · cases hvalue

theorem Accepted.terms (hb : KeepsSign b) (h : f.Accepted b) :
    0 < f.quantity ∧ 0 < f.price ∧ positive f.fill.qty = true ∧ positive f.fill.px = true ∧
      checkQuantity b f.fill f.quantity = .ok () := by
  unfold UsdtFill.Accepted checkAmounts at h
  rw [f.carried] at h
  simp only [bind_eq_ok, mapError_eq_ok, validateProjection, require_eq_ok] at h
  obtain ⟨_, ⟨_, -, _, -, _, ⟨hquantity, hprice⟩, _, hqty, _, hpx, -⟩, -⟩ := h
  refine ⟨hquantity, hprice, projectsTo_positive hb hquantity hqty, projectsTo_positive hb hprice hpx, ?_⟩
  simp only [Binary64.projectsTo, bind_eq_ok, require_eq_ok] at hqty
  obtain ⟨value, hvalue, hfinite⟩ := hqty
  simp only [checkQuantity, bind_eq_ok, require_eq_ok, mapError_eq_ok]
  exact ⟨(), hquantity, value, hvalue, hfinite⟩

theorem exactQuantity_eq : exactQuantity f.fill f.exactQty = some f.quantity := by
  unfold exactQuantity
  rw [f.carried]
  rfl

theorem settle_eq (hb : KeepsSign b) (h : f.Accepted b) :
    f.settle b lots = ((lots.lot f.key).take b f.key f.fill f.quantity true f.economics).map
      (fun next => lots.put f.key next.1 next.2) := by
  obtain ⟨-, -, hqty, hpx, hcheck⟩ := Accepted.terms hb h
  have hamounts : checkAmounts b f.fill f.exactQty = .ok () := h
  unfold UsdtFill.settle Lots.onFillWithEconomics Lots.settle
  simp only [hamounts, exactQuantity_eq, hcheck, hqty, hpx, Bool.and_self, if_true, isSome_some, Bool.true_or,
    bind, Except.bind]
  rw [show (f.sleeve, f.symbol) = f.key from rfl]
  cases (lots.lot f.key).take b f.key f.fill f.quantity true f.economics <;> rfl

theorem accepted_of_settle (h : f.settle b lots = .ok lots') : f.Accepted b := by
  simp only [UsdtFill.settle, Lots.onFillWithEconomics, bind_eq_ok] at h
  obtain ⟨_, haccepted, -⟩ := h
  exact haccepted

structure Part where
  (quantity value fee : Exact)

def Closes (lot : Lot) (f : UsdtFill) : Prop :=
  lot.signedQty ≠ 0 ∧ (lot.signedQty + f.signed = 0 ∨ lot.signedQty * (lot.signedQty + f.signed) < 0)

/-- What a fill does to the lots: which trip it closes, and how it is shared when it goes
through zero. -/
structure Settles (lots : Lots) (f : UsdtFill) (lots' : Lots) : Prop where
  other : ∀ key, key ≠ f.key → lots'.lot key = lots.lot key
  moved : (lots'.lot f.key).signedQty = (lots.lot f.key).signedQty + f.signed
  stays : ¬ Closes (lots.lot f.key) f → lots'.closed = lots.closed
  closes : Closes (lots.lot f.key) f → ∃ t, lots'.closed = lots.closed ++ [t] ∧ (t.sleeve, t.symbol) = f.key
  splits : (lots.lot f.key).signedQty * ((lots.lot f.key).signedQty + f.signed) < 0 →
    ∃ (out into : Part) (t : ClosedTrade) (fees : Exact),
      0 < out.quantity ∧ 0 < into.quantity ∧ out.quantity + into.quantity = f.quantity ∧
      out.value + into.value = f.value ∧ out.fee + into.fee = f.charge ∧
      -- the part that is out ends the old trip
      (lots.lot f.key).fees = some fees ∧ lots'.closed = lots.closed ++ [t] ∧
      (lots.lot f.key).signedQty + f.fill.signed out.quantity = 0 ∧
      t.IsTrip f.key ((lots.lot f.key).cash - f.fill.signed out.value - (fees + out.fee)) ∧
      -- the other part is all there is of the new one
      (lots'.lot f.key).fills = 1 ∧ (lots'.lot f.key).signedQty = f.fill.signed into.quantity ∧
      (lots'.lot f.key).cash = -f.fill.signed into.value ∧ (lots'.lot f.key).fees = some into.fee

theorem fees_folded {lot : Lot} {fees q : Exact} {exact : Bool} (h : lot.fees = some fees) :
    (folded lot f q exact).fees = some (fees + f.charge * (q / f.quantity)) := by
  show lot.fees.map _ = _
  rw [h]
  rfl

/-- What a fill adds to the cash less the fees of its sleeve and symbol. -/
def UsdtFill.result (f : UsdtFill) : Exact := -f.fill.signed f.value - f.charge

theorem mul_signed (fill : Fill) (p q : Exact) : p * fill.signed q = fill.signed (p * q) := by
  rw [signed_eq_mul, signed_eq_mul]
  ring

def ClosedTrade.net (t : ClosedTrade) : Exact :=
  match t.roundTrip with
  | some trip => trip.netUsdtExact
  | none => 0

theorem ClosedTrade.IsTrip.net_eq {t : ClosedTrade} {x : Exact} (h : t.IsTrip key x) : t.net = x := by
  obtain ⟨-, trip, htrip, hnet⟩ := h
  unfold net
  rw [htrip]
  exact hnet

def Lots.trips (lots : Lots) (key : LotKey) : List ClosedTrade :=
  lots.closed.filter fun t => (t.sleeve, t.symbol) = key

def Lot.balance (lot : Lot) : Exact := lot.cash - lot.fees.getD 0

/-- What the closed trips and the open lot of a sleeve in a symbol come to. -/
def Lots.result (lots : Lots) (key : LotKey) : Exact :=
  ((lots.trips key).map ClosedTrade.net).sum + (lots.lot key).balance

/-- What holds of the lots of exact fills, whatever the fills were. -/
structure Lots.Kept (lots : Lots) : Prop where
  lot : ∀ key, (lots.lot key).Kept
  trips : ∀ t ∈ lots.closed, t.roundTrip.isSome

variable (key next trade) in
/-- What a fill leaves at its key: a lot that is kept, and a trip of that key, if any. -/
structure Leaves : Prop where
  kept : next.Kept
  flat : next.signedQty = 0 → next = {}
  trip : ∀ t, trade = some t → ∃ x, t.IsTrip key x

theorem Leaves.lots_kept (h : Leaves key next trade) (hk : lots.Kept) : (lots.put key next trade).Kept := by
  constructor
  · intro other
    by_cases ho : other = key
    · rw [ho, lot_put h.flat]
      exact h.kept
    · rw [lot_put_of_ne ho]
      exact hk.lot other
  · intro t ht
    rcases mem_append.mp ht with ht | ht
    · exact hk.trips t ht
    · obtain ⟨x, -, trip, htrip, -⟩ := h.trip t (mem_toList.mp ht)
      rw [htrip]
      rfl

theorem Leaves.result_of_ne {other : LotKey}
    (h : Leaves key next trade) (hne : other ≠ key) : (lots.put key next trade).result other = lots.result other := by
  have htrips : (lots.put key next trade).trips other = lots.trips other := by
    unfold Lots.trips Lots.put
    cases trade with
    | none => simp
    | some t =>
      obtain ⟨x, hkey, -⟩ := h.trip t rfl
      simp [hkey, hne.symm]
  rw [Lots.result, Lots.result, htrips, lot_put_of_ne hne]

theorem Leaves.result_eq (h : Leaves key next trade) : (lots.put key next trade).result key =
      ((lots.trips key).map net).sum + ((trade.map net).getD 0 + next.balance) := by
  have htrips : (lots.put key next trade).trips key = lots.trips key ++ trade.toList := by
    unfold Lots.trips Lots.put
    cases trade with
    | none => simp
    | some t =>
      obtain ⟨x, hkey, -⟩ := h.trip t rfl
      simp [hkey]
  rw [Lots.result, htrips, lot_put h.flat, map_append, sum_append]
  cases trade with
  | none => simp
  | some t => simp [add_assoc]

/-- An accepted fill is settled, and its value and fee go to the trips and the lot of its key. -/
def Step (b : Binary64) (lots : Lots) (f : UsdtFill) : Prop :=
  ∃ lots', f.settle b lots = .ok lots' ∧ lots'.Kept ∧ Settles lots f lots' ∧
    ∀ key, lots'.result key = lots.result key + if key = f.key then f.result else 0

theorem step_of_take (hb : KeepsSign b) (hacc : f.Accepted b) (hk : lots.Kept)
    (htake : (lots.lot f.key).take b f.key f.fill f.quantity true f.economics = .ok (next, trade))
    (h : Leaves f.key next trade) (hsettles : Settles lots f (lots.put f.key next trade))
    (hbalance : (trade.map net).getD 0 + next.balance = (lots.lot f.key).balance + f.result) :
    Step b lots f := by
  refine ⟨lots.put f.key next trade, ?_, h.lots_kept hk, hsettles, ?_⟩
  · rw [settle_eq hb hacc, htake]
    rfl
  · intro key
    by_cases hkey : key = f.key
    · rw [hkey, if_pos rfl, h.result_eq, hbalance, Lots.result, add_assoc]
    · rw [if_neg hkey, add_zero, h.result_of_ne hkey]

theorem balance_folded {lot : Lot} {fees q : Exact} {exact : Bool} (h : lot.fees = some fees) :
    (folded lot f q exact).balance = lot.balance - f.fill.signed (f.price * q) - f.charge * (q / f.quantity) := by
  rw [balance, balance, fees_folded h, h]
  show lot.cash - f.price * f.fill.signed q - (fees + f.charge * (q / f.quantity)) = _
  rw [mul_signed, getD_some]
  ring

theorem step_away (hb : KeepsSign b) (hacc : f.Accepted b) (hk : lots.Kept)
    (haway : ¬ Closes (lots.lot f.key) f) : Step b lots f := by
  set lot := lots.lot f.key
  obtain ⟨hq, hprice, -⟩ := Accepted.terms hb hacc
  obtain ⟨fees, hfees⟩ := isSome_iff_exists.mp (hk.lot f.key).fees
  have hs : f.signed ≠ 0 := signed_ne_zero f.fill hq
  have hdir : lot.signedQty = 0 ∨
      0 < lot.signedQty * (lot.signedQty + f.signed) := by
    by_cases hzero : lot.signedQty = 0
    · exact .inl hzero
    · have hnot := not_or.mp (fun h => haway ⟨hzero, h⟩)
      exact .inr (lt_of_le_of_ne (not_lt.mp hnot.2) (mul_ne_zero hzero hnot.1).symm)
  have hmoved : lot.signedQty + f.signed ≠ 0 := by
    rcases hdir with h | h
    · rw [h, zero_add]
      exact hs
    · exact right_ne_zero_of_mul h.ne'
  obtain ⟨htake, hkept⟩ := take_away (b := b) (hk.lot f.key) hq hprice hdir
  have hleaves : Leaves f.key (folded lot f f.quantity true) none :=
    ⟨hkept, fun h => absurd h hmoved, fun t ht => by cases ht⟩
  refine step_of_take hb hacc hk htake hleaves ?_ ?_
  · refine ⟨fun key hne => lot_put_of_ne hne, ?_, fun _ => append_nil _, fun h => absurd h haway, ?_⟩
    · rw [lot_put hleaves.flat]
      rfl
    · intro hthrough
      have hzero : lot.signedQty ≠ 0 := left_ne_zero_of_mul hthrough.ne
      exact absurd ⟨hzero, .inr hthrough⟩ haway
  · rw [balance_folded hfees, div_self hq.ne', UsdtFill.result, UsdtFill.value]
    show 0 + _ = _
    ring

theorem step_to_zero (hb : KeepsSign b) (hacc : f.Accepted b) (hk : lots.Kept)
    (hne : (lots.lot f.key).signedQty ≠ 0) (hzero : (lots.lot f.key).signedQty + f.signed = 0) : Step b lots f := by
  obtain ⟨hq, hprice, -⟩ := Accepted.terms hb hacc
  obtain ⟨fees, hfees⟩ := isSome_iff_exists.mp (hk.lot f.key).fees
  obtain ⟨t, htake, htrip⟩ := take_to_zero (b := b) (hk.lot f.key) hq hfees hne hzero
  have hleaves : Leaves f.key {} (some t) :=
    ⟨kept_new, fun _ => rfl, fun t' ht => by cases ht; exact ⟨_, htrip⟩⟩
  refine step_of_take hb hacc hk htake hleaves ?_ ?_
  · refine ⟨fun key hother => lot_put_of_ne hother, ?_, fun h => absurd ⟨hne, .inl hzero⟩ h, ?_, ?_⟩
    · rw [lot_put hleaves.flat, hzero]
    · exact fun _ => ⟨t, rfl, htrip.1⟩
    · intro hthrough
      rw [hzero, mul_zero] at hthrough
      exact absurd hthrough (lt_irrefl _)
  · show t.net + (0 - 0) = _
    rw [htrip.net_eq, balance, hfees, getD_some, UsdtFill.result, UsdtFill.value, ← mul_signed]
    show _ = _ + (-(f.price * f.signed) - f.charge)
    ring

theorem step_through (hb : KeepsSign b) (hacc : f.Accepted b) (hk : lots.Kept)
    (hthrough : (lots.lot f.key).signedQty * ((lots.lot f.key).signedQty + f.signed) < 0) : Step b lots f := by
  set lot := lots.lot f.key
  obtain ⟨hq, hprice, -⟩ := Accepted.terms hb hacc
  obtain ⟨fees, hfees⟩ := isSome_iff_exists.mp (hk.lot f.key).fees
  obtain ⟨t, htake, htrip, hkept, hsum, hout, hopen⟩ :=
    take_through (b := b) true (hk.lot f.key) hq hprice hfees hthrough
  have hne : lot.signedQty ≠ 0 := left_ne_zero_of_mul hthrough.ne
  have hnext : lot.signedQty + f.signed ≠ 0 := right_ne_zero_of_mul hthrough.ne
  have hflat : (folded {} f |lot.signedQty + f.signed| true).signedQty ≠ 0 := by
    show 0 + f.fill.signed _ ≠ 0
    rw [hopen, zero_add]
    exact hnext
  have hleaves : Leaves f.key (folded {} f |lot.signedQty + f.signed| true) (some t) :=
    ⟨hkept, fun h => absurd h hflat, fun t' ht => by cases ht; exact ⟨_, htrip⟩⟩
  have hshares : ∀ x : Exact, x * (|lot.signedQty| / f.quantity) +
      x * (|lot.signedQty + f.signed| / f.quantity) = x := by
    intro x
    rw [← mul_add, ← add_div, hsum, div_self hq.ne', mul_one]
  -- the value of the part that closes, in cash
  have hvalue : f.fill.signed (f.price * |lot.signedQty|) = -(f.price * lot.signedQty) := by
    rw [← mul_signed, hout, mul_neg]
  have hvalue' : f.fill.signed (f.price * |lot.signedQty + f.signed|) =
      f.price * (lot.signedQty + f.signed) := by
    rw [← mul_signed, hopen]
  refine step_of_take hb hacc hk htake hleaves ?_ ?_
  · refine ⟨fun key hother => lot_put_of_ne hother, ?_, fun h => absurd ⟨hne, .inr hthrough⟩ h, ?_, ?_⟩
    · rw [lot_put hleaves.flat]
      show 0 + f.fill.signed _ = _
      rw [hopen, zero_add]
    · exact fun _ => ⟨t, rfl, htrip.1⟩
    · intro _
      refine ⟨⟨|lot.signedQty|, f.price * |lot.signedQty|,
          f.charge * (|lot.signedQty| / f.quantity)⟩,
        ⟨|lot.signedQty + f.signed|, f.price * |lot.signedQty + f.signed|,
          f.charge * (|lot.signedQty + f.signed| / f.quantity)⟩, t, fees,
        abs_pos.mpr hne, abs_pos.mpr hnext, hsum, ?_, hshares _, hfees, rfl, ?_, ?_, ?_⟩
      · rw [← mul_add, hsum]
        rfl
      · rw [hout, add_neg_cancel]
      · rw [hvalue, sub_neg_eq_add]
        exact htrip
      · rw [lot_put hleaves.flat]
        refine ⟨rfl, zero_add _, ?_, ?_⟩
        · show 0 - f.price * f.fill.signed _ = _
          rw [mul_signed, zero_sub]
        · rw [fees_folded (show ({} : Lot).fees = some 0 from rfl), zero_add]
  · show t.net + _ = _
    rw [htrip.net_eq, balance_folded (show ({} : Lot).fees = some 0 from rfl), hvalue', balance, balance, hfees,
      UsdtFill.result, UsdtFill.value, ← mul_signed]
    show _ + (0 - 0 - _ - _) = _ - fees + (-(f.price * f.signed) - f.charge)
    linear_combination -hshares f.charge

theorem step (hb : KeepsSign b) (hacc : f.Accepted b) (hk : lots.Kept) : Step b lots f := by
  by_cases hcloses : Closes (lots.lot f.key) f
  · obtain ⟨hne, hzero | hthrough⟩ := hcloses
    · exact step_to_zero hb hacc hk hne hzero
    · exact step_through hb hacc hk hthrough
  · exact step_away hb hacc hk hcloses

end settle

/-! ## A run of fills -/

def fillsOf (key : LotKey) (fills : List UsdtFill) : List UsdtFill := fills.filter fun f => f.key = key

variable (fills : List UsdtFill)

def signedTotal : Exact := (fills.map UsdtFill.signed).sum

def sold : Exact := ((fills.filter (fun f => f.fill.side = .sell)).map UsdtFill.value).sum

def bought : Exact := ((fills.filter (fun f => f.fill.side = .buy)).map UsdtFill.value).sum

def charged : Exact := (fills.map UsdtFill.charge).sum

theorem sum_result : (fills.map UsdtFill.result).sum = sold fills - bought fills - charged fills := by
  induction fills with
  | nil => simp [sold, bought, charged]
  | cons f fills ih =>
    simp only [map_cons, sum_cons, ih, sold, bought, charged, UsdtFill.result, signed]
    cases hside : f.fill.side <;> simp [hside] <;> ring

/-- The books of a sleeve in a symbol after some fills. -/
structure Conserved (key : LotKey) (fills : List UsdtFill) (lots : Lots) : Prop where
  quantity : (lots.lot key).signedQty = signedTotal (fillsOf key fills)
  priced : ∀ t ∈ lots.trips key, t.roundTrip.isSome
  money : ∃ fees, (lots.lot key).fees = some fees ∧
    ((lots.trips key).map ClosedTrade.net).sum + ((lots.lot key).cash - fees) =
      sold (fillsOf key fills) - bought (fillsOf key fills) - charged (fillsOf key fills)

/-- What a run of fills keeps, with what it adds up to at each key. -/
structure Reached (fills : List UsdtFill) (lots : Lots) : Prop where
  kept : lots.Kept
  quantity : ∀ key, (lots.lot key).signedQty = signedTotal (fillsOf key fills)
  result : ∀ key, lots.result key = ((fillsOf key fills).map UsdtFill.result).sum

theorem Reached.conserved {fills : List UsdtFill} {lots : Lots} (h : Reached fills lots) (key : LotKey) :
    Conserved key fills lots := by
  obtain ⟨fees, hfees⟩ := isSome_iff_exists.mp (h.kept.lot key).fees
  refine ⟨h.quantity key, fun t ht => h.kept.trips t (mem_filter.mp ht).1, fees, hfees, ?_⟩
  rw [← sum_result, ← h.result key, Lots.result, balance, hfees, getD_some]

section run
variable {b : Binary64} {fills : List UsdtFill} {f : UsdtFill} {lots lots' : Lots}

theorem fillsOf_append (key : LotKey) :
    fillsOf key (fills ++ [f]) = fillsOf key fills ++ if key = f.key then [f] else [] := by
  by_cases h : key = f.key
  · simp [fillsOf, h]
  · simp [fillsOf, h, Ne.symm h]

theorem reached_nil : Reached [] {} := by
  refine ⟨⟨fun _ => kept_new, fun t ht => by cases ht⟩, fun _ => rfl, fun key => ?_⟩
  show (0 : Exact) + (0 - 0) = 0
  norm_num

theorem Reached.next (h : Reached fills lots) (hb : KeepsSign b) (hacc : f.Accepted b) :
    ∃ lots', f.settle b lots = .ok lots' ∧ Reached (fills ++ [f]) lots' ∧ Settles lots f lots' := by
  obtain ⟨lots', hsettle, hkept, hsettles, hresult⟩ := step hb hacc h.kept
  refine ⟨lots', hsettle, ⟨hkept, ?_, ?_⟩, hsettles⟩
  · intro key
    rw [fillsOf_append]
    by_cases hkey : key = f.key
    · rw [if_pos hkey, hkey, hsettles.moved, h.quantity]
      simp [signedTotal]
    · rw [if_neg hkey, append_nil, hsettles.other key hkey, h.quantity]
  · intro key
    rw [fillsOf_append, hresult, h.result]
    by_cases hkey : key = f.key
    · simp [hkey]
    · simp [hkey]

theorem onFills_append : onFills b (fills ++ [f]) = onFills b fills >>= fun lots => f.settle b lots := by
  unfold onFills
  rw [foldlM_append]
  congr 1
  funext lots
  rw [foldlM_cons]
  cases f.settle b lots <;> rfl

theorem onFills_spec (hb : KeepsSign b) (fills : List UsdtFill) :
    ((∃ lots, onFills b fills = .ok lots) ↔ ∀ f ∈ fills, f.Accepted b) ∧
      ∀ lots, onFills b fills = .ok lots → Reached fills lots := by
  -- fills are added at the end, as the run takes them
  induction fills using reverseRecOn with
  | nil =>
    refine ⟨iff_of_true ⟨{}, rfl⟩ (by simp), ?_⟩
    rintro lots h
    cases h
    exact reached_nil
  | append_singleton fills f ih =>
    obtain ⟨hiff, hreached⟩ := ih
    rw [onFills_append]
    constructor
    · constructor
      · rintro ⟨lots', h⟩
        obtain ⟨lots, hlots, hsettle⟩ := bind_eq_ok.mp h
        intro g hg
        rcases mem_append.mp hg with hg | hg
        · exact hiff.mp ⟨lots, hlots⟩ g hg
        · rw [mem_singleton.mp hg]
          exact accepted_of_settle hsettle
      · intro hall
        obtain ⟨lots, hlots⟩ := hiff.mpr fun g hg => hall g (mem_append_left _ hg)
        obtain ⟨lots', hsettle, -⟩ := (hreached lots hlots).next hb (hall f (by simp))
        exact ⟨lots', bind_eq_ok.mpr ⟨lots, hlots, hsettle⟩⟩
    · intro lots' h
      obtain ⟨lots, hlots, hsettle⟩ := bind_eq_ok.mp h
      obtain ⟨next, hnext, hnextReached, -⟩ := (hreached lots hlots).next hb (accepted_of_settle hsettle)
      rw [hsettle] at hnext
      cases hnext
      exact hnextReached

end run

/-- Closed trips conserve money exactly. Fills with valid exact amounts and fees in USDT go through; at
every key the trips that closed and the open lot add up to what was sold less what was bought and
charged, and the lot holds the sum of the quantities; and the next fill closes a trip exactly when it
brings the quantity to zero or through it, shared with the next trip in the latter case. -/
theorem exactConservation (b : Binary64) (hb : KeepsSign b) (fills : List UsdtFill) :
    ((∃ lots, onFills b fills = .ok lots) ↔ ∀ f ∈ fills, f.Accepted b) ∧ ∀ lots, onFills b fills = .ok lots →
        (∀ key, Conserved key fills lots) ∧
        ∀ f lots', f.settle b lots = .ok lots' → Settles lots f lots' := by
  obtain ⟨hiff, hreached⟩ := onFills_spec hb fills
  refine ⟨hiff, fun lots hlots => ⟨(hreached lots hlots).conserved, fun f lots' hsettle => ?_⟩⟩
  obtain ⟨next, hnext, -, hsettles⟩ := (hreached lots hlots).next hb (accepted_of_settle hsettle)
  rw [hsettle] at hnext
  cases hnext
  exact hsettles

def exactFill (side : Side) (quantity fee : ℚ) : UsdtFill where
  sleeve := "maker"
  symbol := "BTCUSDT"
  fill := {
    amounts := some ⟨.named "USDT", .ofDerived quantity, .ofDerived 100, some ⟨.named "USDT", .ofDerived fee⟩⟩
    side := side
    qty := .finite quantity
    px := .finite 100
    fee := some (.finite fee)
    venueTsMs := 1 }
  exactQty := none
  economics := none
  amounts := ⟨.named "USDT", .ofDerived quantity, .ofDerived 100, some ⟨.named "USDT", .ofDerived fee⟩⟩
  fee := ⟨.named "USDT", .ofDerived fee⟩
  carried := rfl
  settled := rfl
  charged := rfl
  stated := by simp [Fill.feeStated, isUsdt]
  allocated := fun e h => by cases h

theorem exactConservation_reversal :
    KeepsSign .unrounded ∧ ∃ lots, onFills .unrounded [exactFill .buy 1 0, exactFill .sell 3 3] = .ok lots ∧
      Conserved ("maker", "BTCUSDT") [exactFill .buy 1 0, exactFill .sell 3 3] lots := by
  have hb : KeepsSign .unrounded := by
    intro x v hx hv
    cases hv
    exact hx.le
  obtain ⟨hiff, hall⟩ := exactConservation .unrounded hb [exactFill .buy 1 0, exactFill .sell 3 3]
  have haccepted : ∀ f ∈ [exactFill .buy 1 0, exactFill .sell 3 3], f.Accepted .unrounded :=
    forall_mem_cons.mpr ⟨rfl, forall_mem_singleton.mpr rfl⟩
  obtain ⟨lots, hlots⟩ := hiff.mpr haccepted
  exact ⟨hb, lots, hlots, (hall lots hlots).1 _⟩

end LiquidityMigration.Execution
