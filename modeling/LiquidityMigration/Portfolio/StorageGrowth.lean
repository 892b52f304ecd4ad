import LiquidityMigration.Lib.CostDivisor
import LiquidityMigration.Portfolio.ProfitAndLoss

/- How long the fills of a sleeve stay accountable. A carried cost is exact, and closing part of a position divides it
   by the size, so it may get ever more digits while the sleeve is not flat, and `validate_storage` refuses more than
   `maxRatioDigits`. For decimals of bounded size (`Limits`) nothing else goes wrong, and this does not as long as the
   product of the sizes from which part was closed leaves room (`Sequence.storedNext_of_room`). -/
namespace LiquidityMigration.Portfolio
open Numeric AverageCost Inventory InventoryFill List

/-- Decimals of a number of places, below a number of digits counted in units of the last place. -/
structure Limits where
  (places digits : Nat)

namespace Limits

def unit (L : Limits) : Exact := 1 / 10 ^ L.places

def top (L : Limits) : Exact := 10 ^ L.digits * L.unit

structure Amount (L : Limits) (x : Exact) : Prop where
  mem : x ∈ multiples L.unit
  pos : 0 < x
  lt : x < L.top

/-- Every magnitude from a unit up to the top has a usable binary64. -/
structure Covered (L : Limits) (f64 : Exact → Option ℚ) : Prop where
  zero : Representable f64 0
  within : ∀ x, L.unit ≤ |x| → |x| < L.top → Representable f64 x

/-- There is room for a value divided by `m`, a product of `e` amounts. -/
def Room (L : Limits) (e : Nat) (m : Exact) : Prop := m * 10 ^ (max L.places L.digits * e) < 10 ^ maxRatioDigits

variable {L : Limits} {f64 : Exact → Option ℚ} {x m : Exact} {e : Nat}

theorem unit_pos : 0 < L.unit := by
  unfold unit
  positivity

theorem unit_pow (L : Limits) (e : Nat) : L.unit ^ e * 10 ^ (L.places * e) = 1 := by
  rw [unit, div_pow, one_pow, ← pow_mul, one_div_mul_cancel]
  positivity

theorem top_pow (L : Limits) (e : Nat) : L.top ^ e * 10 ^ (L.places * e) = 10 ^ (L.digits * e) := by
  rw [top, mul_pow, mul_assoc, unit_pow, mul_one, ← pow_mul]

/-- A value that is a multiple of `e` units multiplied, up to a divisor there is room for, can be stored. -/
theorem stored (hm : m ∈ multiples (1 : Exact)) (h1 : 1 ≤ m) (hroom : L.Room e m)
    (hx : m * x ∈ multiples (L.unit ^ e)) (hlt : |x| < L.top ^ e) : Stored x := by
  obtain ⟨k, rfl⟩ := mem_multiples.mp hm
  obtain ⟨a, ha⟩ := mem_multiples.mp hx
  rw [mul_one] at ha h1 hroom
  lift k to ℕ using by exact_mod_cast (zero_le_one.trans h1)
  rw [Int.cast_natCast] at ha h1 hroom
  have hpow : (0 : Exact) < 10 ^ (L.places * e) := by positivity
  have hkpos : (0 : Exact) < k := zero_lt_one.trans_le h1
  have hterm : x * ((k * 10 ^ (L.places * e) : ℕ) : Exact) = a := by
    push_cast
    calc x * (k * 10 ^ (L.places * e)) = k * x * 10 ^ (L.places * e) := by ring
      _ = a * (L.unit ^ e * 10 ^ (L.places * e)) := by rw [ha]; ring
      _ = a := by rw [unit_pow, mul_one]
  have hden : (k : Exact) * 10 ^ (L.places * e) < 10 ^ maxRatioDigits := by
    apply lt_of_le_of_lt _ hroom
    apply mul_le_mul_of_nonneg_left _ hkpos.le
    exact pow_le_pow_right₀ (by norm_num) (Nat.mul_le_mul_right e (le_max_left _ _))
  have hnum : |(a : Exact)| < 10 ^ maxRatioDigits := by
    calc |(a : Exact)| = |x| * (k * 10 ^ (L.places * e)) := by
          rw [← hterm]
          push_cast
          rw [abs_mul, abs_of_pos (mul_pos hkpos hpow)]
      _ < L.top ^ e * (k * 10 ^ (L.places * e)) := mul_lt_mul_of_pos_right hlt (mul_pos hkpos hpow)
      _ = k * 10 ^ (L.digits * e) := by rw [← top_pow]; ring
      _ ≤ k * 10 ^ (max L.places L.digits * e) := by
          apply mul_le_mul_of_nonneg_left _ hkpos.le
          exact pow_le_pow_right₀ (by norm_num) (Nat.mul_le_mul_right e (le_max_right _ _))
      _ < 10 ^ maxRatioDigits := hroom
  apply stored_of_mul _ hterm
  · have h : ((a.natAbs : ℤ) : Exact) < ((10 ^ maxRatioDigits : ℕ) : Exact) := by
      rw [Int.natCast_natAbs, Int.cast_abs]
      push_cast
      exact hnum
    exact_mod_cast h
  · exact_mod_cast hden
  · have : 0 < k := by exact_mod_cast hkpos
    positivity

theorem Room.mono {e' : Nat} {m' : Exact} (h : L.Room e m) (he : e' ≤ e) (hm : m' ≤ m) (h0 : 0 ≤ m) : L.Room e' m' := by
  apply lt_of_le_of_lt _ h
  apply mul_le_mul hm _ (by positivity) h0
  exact pow_le_pow_right₀ (by norm_num) (Nat.mul_le_mul_left _ he)

theorem quantity_ok (hcov : L.Covered f64) (hroom : L.Room 1 1) (hx : x ∈ multiples L.unit) (hlt : |x| < L.top) :
    Representable f64 x ∧ Stored x := by
  constructor
  · rcases eq_or_ne x 0 with h0 | h0
    · rw [h0]
      exact hcov.zero
    · exact hcov.within x (unit_le_abs unit_pos hx h0) hlt
  · apply stored one_mem_whole (le_refl _) hroom
    · rw [one_mul, pow_one]
      exact hx
    · rw [pow_one]
      exact hlt

theorem Amount.ok (h : L.Amount x) (hcov : L.Covered f64) (hroom : L.Room 1 1) : Representable f64 x ∧ Stored x := by
  apply quantity_ok hcov hroom h.mem
  rw [abs_of_pos h.pos]
  exact h.lt

end Limits

open Limits

/-- A venue fill within the limits: decimal terms, the sleeve's own asset, and a
gross quantity on the symbol that stays within the limits. -/
structure Such (L : Limits) (assetOf : PositionKey → AssetId) (inv : Inventory) (fill : InventoryFill) :
    Prop where
  qty : L.Amount fill.qty
  px : ∃ p, fill.px = some p ∧ L.Amount p
  stop : ∀ s, fill.stop = some s → L.Amount s
  asset : fill.settlementAsset = assetOf fill.key
  size : inv.gross fill.symbol - |quantityOf (inv.position fill.key)| +
    |quantityOf (inv.position fill.key) + fill.delta| < L.top

/-- The inventories that accepted fills within the limits lead to, from nothing held. -/
inductive Sequence (f64 : Exact → Option ℚ) (L : Limits) (assetOf : PositionKey → AssetId) :
    Inventory → List InventoryFill → Prop where
  | nil : Sequence f64 L assetOf .empty []
  | snoc {inv next : Inventory} {log : List InventoryFill} {fill : InventoryFill} {realized : RealizedValue}
      (run : Sequence f64 L assetOf inv log) (such : Such L assetOf inv fill)
      (h : inv.fill f64 fill = .ok (realized, next)) : Sequence f64 L assetOf next (log ++ [fill])

def quantities (key : PositionKey) (log : List InventoryFill) : List Exact :=
  (log.filter (fun f => f.key = key)).map InventoryFill.delta

/-- The product of the sizes, in units, of the positions of the fill's sleeve from
which part was closed since it was last flat or changed sign, the fill included. -/
def divisorWith (L : Limits) (log : List InventoryFill) (fill : InventoryFill) : Exact :=
  let s := divisor L.unit (quantities fill.key log)
  dividedBy L.unit s.1 fill.delta s.2

variable {f64 : Exact → Option ℚ} {L : Limits} {assetOf : PositionKey → AssetId} {inv : Inventory}
  {log : List InventoryFill} {fill : InventoryFill}

theorem Such.delta_mem (h : Such L assetOf inv fill) : fill.delta ∈ multiples L.unit := by
  unfold delta
  cases fill.side with
  | buy => exact h.qty.mem
  | sell => exact neg_mem h.qty.mem

theorem Sequence.history (h : Sequence f64 L assetOf inv log) (key : PositionKey) :
    ∃ trades, History f64 key (assetOf key) inv trades ∧ trades.map Trade.signed = quantities key log ∧
      ∀ t ∈ trades, L.Amount t.qty ∧ L.Amount t.px := by
  induction h with
  | nil => exact ⟨[], .flat rfl, rfl, by simp⟩
  | @snoc inv next log fill realized _ such h ih =>
    obtain ⟨trades, hist, hq, ham⟩ := ih
    by_cases hk : fill.key = key
    · obtain ⟨p, hpx, hp⟩ := such.px
      refine ⟨_, .filled hist hk hpx (by rw [such.asset, hk]) h, ?_, ?_⟩
      · have hlast : quantities key (log ++ [fill]) = quantities key log ++ [fill.delta] := by
          simp [quantities, hk]
        rw [map_append, hq, hlast]
        rfl
      · intro t ht
        rcases mem_append.mp ht with ht | ht
        · exact ham t ht
        · rw [mem_singleton.mp ht]
          exact ⟨such.qty, hp⟩
    · refine ⟨trades, .elsewhere hist hk h, ?_, ham⟩
      have hlast : quantities key (log ++ [fill]) = quantities key log := by simp [quantities, hk]
      rw [hq, hlast]

theorem Such.position_lt (h : Such L assetOf inv fill) :
    |quantityOf (inv.position fill.key) + fill.delta| < L.top := by
  have hrest : 0 ≤ inv.gross fill.symbol - |quantityOf (inv.position fill.key)| := by
    show 0 ≤ inv.gross fill.key.2 - _
    rw [gross_beside, add_sub_cancel_left]
    apply sum_nonneg
    intro x hx
    obtain ⟨row, _, rfl⟩ := mem_map.mp hx
    exact abs_nonneg _
  linarith [h.size]

/-- Quantities and stops of a sequence stay within the limits. -/
structure Within (L : Limits) (inv : Inventory) : Prop where
  qty : ∀ key, quantityOf (inv.position key) ∈ multiples L.unit ∧ |quantityOf (inv.position key)| < L.top
  stop : ∀ key row, inv.position key = some row → ∀ s, row.stopPx = some s → L.Amount s

theorem Within.nextStop (hw : Within L inv) (such : Such L assetOf inv fill)
    {next : Option PortfolioPosition × RealizedValue} (h : nextPosition (inv.position fill.key) fill = .ok next) :
    ∀ row, next.1 = some row → ∀ s, row.stopPx = some s → L.Amount s := by
  intro row hrow s hs
  obtain hfill | ⟨held, hheld, hold⟩ := nextPosition_stop h hrow hs
  · exact such.stop s hfill
  · exact hw.stop fill.key held hheld s hold

theorem Within.filled (hw : Within L inv) (such : Such L assetOf inv fill) {next : Inventory} {realized : RealizedValue}
    (h : inv.fill f64 fill = .ok (realized, next)) : Within L next := by
  obtain ⟨row, hcheck, hrow, hothers⟩ := fill_ok h
  obtain ⟨_, _, hnext, _⟩ := checkFill_ok.mp hcheck
  have hqty := nextPosition_qty hnext
  constructor
  · intro key
    by_cases hk : key = fill.key
    · rw [hk, hrow, hqty]
      exact ⟨add_mem (hw.qty fill.key).1 such.delta_mem, such.position_lt⟩
    · rw [hothers key hk]
      exact hw.qty key
  · intro key r hr s hs
    by_cases hk : key = fill.key
    · rw [hk, hrow] at hr
      exact hw.nextStop such hnext r hr s hs
    · rw [hothers key hk] at hr
      exact hw.stop key r hr s hs

theorem Sequence.within (h : Sequence f64 L assetOf inv log) : Within L inv := by
  induction h with
  | nil =>
    have htop : 0 < L.top := mul_pos (by positivity) unit_pos
    refine ⟨fun key => ⟨zero_mem _, ?_⟩, nofun⟩
    rw [show quantityOf (empty.position key) = 0 from rfl, abs_zero]
    exact htop
  | snoc _ such h ih => exact ih.filled such h

/-- The books of a sleeve after a sequence: the lot it holds, what its cost is
divided by, and the prices that entered it. -/
structure Kept (L : Limits) (key : PositionKey) (asset : AssetId) (inv : Inventory)
    (log : List InventoryFill) (l : Lot Exact) (prices : List Exact) : Prop where
  lot : lotOf (inv.position key) = some l
  asset_eq : ∀ row, inv.position key = some row → row.settlementAsset = asset
  divided : l.Divided L.unit (divisor L.unit (quantities key log))
  sound : l.Sound
  between : l.Between prices
  prices : ∀ p ∈ prices, L.Amount p

theorem Sequence.kept (h : Sequence f64 L assetOf inv log) (key : PositionKey) :
    ∃ l prices, Kept L key (assetOf key) inv log l prices := by
  obtain ⟨trades, hist, hq, ham⟩ := h.history key
  have hb := hist.booked
  have hmem : ∀ t ∈ flows trades, t.1 ≠ 0 ∧ 0 < t.2 ∧ t.1 ∈ multiples L.unit ∧ L.Amount t.2 := by
    intro t ht
    obtain ⟨t, hmem, rfl⟩ := mem_map.mp ht
    obtain ⟨hqty, hpx⟩ := ham t hmem
    refine ⟨signed_ne_zero hqty.pos, hpx.pos, ?_, hpx⟩
    unfold Trade.signed
    cases t.side with
    | buy => exact hqty.mem
    | sell => exact neg_mem hqty.mem
  have hbal := Books.run_balanced (fun t ht => ⟨(hmem t ht).1, (hmem t ht).2.1⟩)
  have hdiv := divisor_run unit_pos fun t ht => ⟨(hmem t ht).1, (hmem t ht).2.2.1, (hmem t ht).2.2.2.mem⟩
  rw [flows, map_map, show ((·.1) ∘ fun t : Trade => (t.signed, t.px)) = Trade.signed from rfl, hq] at hdiv
  refine ⟨_, _, hb.lot, hb.asset_eq, hdiv, hbal.sound, hbal.between, ?_⟩
  intro p hp
  obtain ⟨t, ht, rfl⟩ := Books.prices_mem p hp
  exact (hmem t ht).2.2.2

variable {l : Lot Exact} {prices : List Exact}

theorem cost_lt (hs : l.Sound) (hb : l.Between prices)
    (hp : ∀ p ∈ prices, L.Amount p) (hq : |l.qty| < L.top) : 0 ≤ l.cost ∧ l.cost < L.top ^ 2 := by
  have htop : 0 < L.top := (abs_nonneg _).trans_lt hq
  by_cases h0 : l.qty = 0
  · rw [hs.1 h0]
    exact ⟨le_refl _, pow_pos htop 2⟩
  · refine ⟨(hs.2 h0).le, ?_⟩
    obtain ⟨_, hcost⟩ := (hb h0).2 0 L.top fun p hmem => ⟨(hp p hmem).pos.le, (hp p hmem).lt.le⟩
    calc l.cost ≤ L.top * |l.qty| := hcost
      _ < L.top * L.top := mul_lt_mul_of_pos_left hq htop
      _ = L.top ^ 2 := (sq _).symm

theorem average_representable (hcov : L.Covered f64) (hb : l.Between prices)
    (hp : ∀ p ∈ prices, L.Amount p) (h0 : l.qty ≠ 0) : Representable f64 (l.cost / |l.qty|) := by
  obtain ⟨lo, hlo, hi, hhi, _, hle, hge⟩ := hb.average h0
  have hlow : L.unit ≤ lo := by
    have h := unit_le_abs unit_pos (hp lo hlo).mem (hp lo hlo).pos.ne'
    rwa [abs_of_pos (hp lo hlo).pos] at h
  have hpos : 0 < l.cost / |l.qty| := (hp lo hlo).pos.trans_le hle
  apply hcov.within
  · rw [abs_of_pos hpos]
    exact hlow.trans hle
  · rw [abs_of_pos hpos]
    exact hge.trans_lt (hp hi hhi).lt

theorem validateNext_of_lot {out : Option PortfolioPosition} (hcov : L.Covered f64) (hroom : L.Room 1 1)
    (hlot : lotOf out = some l) (hne : ∀ row, out = some row → row.signedQty ≠ 0)
    (hstop : ∀ row, out = some row → ∀ s, row.stopPx = some s → L.Amount s)
    (hq : l.qty ∈ multiples L.unit) (hlt : |l.qty| < L.top) (hstored : Stored l.cost)
    (hs : l.Sound) (hb : l.Between prices) (hp : ∀ p ∈ prices, L.Amount p) : validateNext f64 out = .ok () := by
  cases out with
  | none => rfl
  | some row =>
    obtain ⟨v, hv, rfl⟩ : ∃ v, row.entryValue = some v ∧ ⟨row.signedQty, v⟩ = l := by
      simpa [lotOf] using hlot
    have h0 := hne row rfl
    apply validatePosition_ok.mpr
    refine ⟨⟨h0, ?_, fun s h => (hstop row rfl s h).pos⟩, quantity_ok hcov hroom hq hlt, ?_, ?_⟩
    · intro w hw
      rw [hv] at hw
      cases hw
      exact hs.2 h0
    · intro w hw
      rw [hv] at hw
      cases hw
      exact ⟨hstored, average_representable hcov hb hp h0⟩
    · intro s h
      exact ((hstop row rfl s h).ok hcov hroom).symm

theorem stored_of_validateNext {out : Option PortfolioPosition} (hlot : lotOf out = some l)
    (h : validateNext f64 out = .ok ()) : Stored l.cost := by
  cases out with
  | none =>
    cases hlot
    exact ⟨Nat.pow_pos (by decide), Nat.one_lt_pow (by decide) (by decide)⟩
  | some row =>
    obtain ⟨v, hv, rfl⟩ : ∃ v, row.entryValue = some v ∧ ⟨row.signedQty, v⟩ = l := by
      simpa [lotOf] using hlot
    exact ((validatePosition_ok.mp h).2.2.1 v hv).1

theorem Within.sums_ok (hw : Within L inv) (hcov : L.Covered f64) (hroom : L.Room 1 1)
    (such : Such L assetOf inv fill) {q : Exact} (hq : q = quantityOf (inv.position fill.key) + fill.delta) :
    (Representable f64 (inv.net fill.symbol - quantityOf (inv.position fill.key) + q) ∧
      Stored (inv.net fill.symbol - quantityOf (inv.position fill.key) + q)) ∧
    (Representable f64 (inv.gross fill.symbol - |quantityOf (inv.position fill.key)| + |q|) ∧
      Stored (inv.gross fill.symbol - |quantityOf (inv.position fill.key)| + |q|)) := by
  have hle := inv.abs_net_le_gross fill.key q
  have hsize := such.size
  rw [← hq] at hsize
  have hmem : q ∈ multiples L.unit := by
    rw [hq]
    exact add_mem (hw.qty fill.key).1 such.delta_mem
  have hrows : ∀ row ∈ inv.beside fill.key, row.signedQty ∈ multiples L.unit := by
    intro row hrow
    have h := (hw.qty row.key).1
    rwa [position_of_mem_rows (mem_rows_of_mem_beside hrow)] at h
  change |inv.net fill.symbol - _ + q| ≤ inv.gross fill.symbol - _ + |q| at hle
  constructor
  · apply quantity_ok hcov hroom
    · rw [show fill.symbol = fill.key.2 from rfl, net_beside, add_sub_cancel_left]
      apply add_mem _ hmem
      apply list_sum_mem
      intro x hx
      obtain ⟨row, hrow, rfl⟩ := mem_map.mp hx
      exact hrows row hrow
    · exact hle.trans_lt hsize
  · apply quantity_ok hcov hroom
    · rw [show fill.symbol = fill.key.2 from rfl, gross_beside, add_sub_cancel_left]
      apply add_mem _ (abs_mem_multiples hmem)
      apply list_sum_mem
      intro x hx
      obtain ⟨row, hrow, rfl⟩ := mem_map.mp hx
      exact abs_mem_multiples (hrows row hrow)
    · rw [abs_of_nonneg ((abs_nonneg _).trans hle)]
      exact hsize

/-- The exact cost the sleeve carries on after the fill, and the exact amount the fill
realizes, can be stored. -/
def StoredNext (inv : Inventory) (fill : InventoryFill) : Prop :=
  ∀ l p, lotOf (inv.position fill.key) = some l → fill.px = some p →
    Stored (l.trade fill.delta p).1.cost ∧ Stored (l.trade fill.delta p).2

/-- What a fill within the limits makes of the sleeve's books. -/
theorem Sequence.nextLot (seq : Sequence f64 L assetOf inv log) (such : Such L assetOf inv fill) :
    ∃ l prices p out, Kept L fill.key (assetOf fill.key) inv log l prices ∧ fill.px = some p ∧ L.Amount p ∧
      nextPosition (inv.position fill.key) fill = .ok out ∧ lotOf out.1 = some (l.trade fill.delta p).1 ∧
      out.2.amount = some (l.trade fill.delta p).2 := by
  obtain ⟨l, prices, hk⟩ := seq.kept fill.key
  obtain ⟨p, hpx, hp⟩ := such.px
  have hasset : ∀ row, inv.position fill.key = some row → row.settlementAsset = fill.settlementAsset := by
    intro row hrow
    rw [hk.asset_eq row hrow, such.asset]
  obtain ⟨out, hnext⟩ := nextPosition_total hasset
  obtain ⟨hlot, hamount, _, _⟩ := nextPosition_lot hk.lot (fun row hr => (inv.rows_ok _ row hr).2) such.qty.pos hp.pos
    hpx hasset hnext
  exact ⟨l, prices, p, out, hk, hpx, hp, hnext, hlot, hamount⟩

theorem Sequence.storedNext (seq : Sequence f64 L assetOf inv log) (such : Such L assetOf inv fill)
    {change : InventoryChange} (h : inv.prepareFill f64 fill = .ok change) : StoredNext inv fill := by
  obtain ⟨l, prices, p, out, hk, hpx, -, hnext, hlot, hamount⟩ := seq.nextLot such
  have hchecked : checkFill f64 inv fill = .ok out := by
    unfold prepareFill at h
    split at h
    · cases h
    · next out' hout =>
      obtain ⟨_, _, hnext', _⟩ := checkFill_ok.mp hout
      cases hnext.symm.trans hnext'
      exact hout
  obtain ⟨_, _, _, haccept⟩ := checkFill_ok.mp hchecked
  intro l' p' hl hp
  cases hk.lot.symm.trans hl
  cases hpx.symm.trans hp
  exact ⟨stored_of_validateNext hlot haccept.next, haccept.amount _ hamount⟩

theorem Sequence.prepareFill_ok (hcov : L.Covered f64) (seq : Sequence f64 L assetOf inv log)
    (such : Such L assetOf inv fill) (hroom : L.Room 1 1) (hstored : StoredNext inv fill) :
    ∃ change, inv.prepareFill f64 fill = .ok change := by
  obtain ⟨l, prices, p, out, hk, hpx, hp, hnext, hlot, hamount⟩ := seq.nextLot such
  obtain ⟨hcost, hrealized⟩ := hstored l p hk.lot hpx
  have hw := seq.within
  have hd0 := delta_ne_zero such.qty.pos
  have hdivided := hk.divided.trade unit_pos hd0 such.delta_mem hp.mem
  have hlt : |(l.trade fill.delta p).1.qty| < L.top := by
    rw [Lot.trade_qty hd0, ← (carried_eq hk.lot).2]
    exact such.position_lt
  have hprices : ∀ x ∈ entered l fill.delta p prices, L.Amount x := by
    intro x hx
    obtain rfl | hx := mem_entered hx
    · exact hp
    · exact hk.prices x hx
  have hvalid : validateNext f64 out.1 = .ok () :=
    validateNext_of_lot hcov hroom hlot (fun row hr => nextPosition_ne_zero hd0 hnext hr) (hw.nextStop such hnext)
      hdivided.qty hlt hcost (hk.sound.trade hd0 hp.pos) (hk.between.trade hd0) hprices
  have hamountOk : ∀ v, out.2.amount = some v → Stored v := by
    intro v hv
    rw [hamount] at hv
    cases hv
    exact hrealized
  obtain ⟨hnet, hgross⟩ := hw.sums_ok hcov hroom such (nextPosition_qty hnext)
  have hchecked : checkFill f64 inv fill = .ok out := by
    apply checkFill_ok.mpr
    refine ⟨⟨such.qty.pos, ?_, fun s hs => (such.stop s hs).pos⟩,
      ⟨such.qty.ok hcov hroom, ?_, fun s hs => (such.stop s hs).ok hcov hroom⟩, hnext,
      ⟨hvalid, hnet, hgross, hamountOk⟩⟩
    · intro p' hp'
      rw [hpx] at hp'
      cases hp'
      exact hp.pos
    · intro p' hp'
      rw [hpx] at hp'
      cases hp'
      exact hp.ok hcov hroom
  obtain ⟨change, hchange, _⟩ := prepareFill_of_checkFill hchecked
  exact ⟨change, hchange⟩

/-- The product of the sizes from which part was closed bounds the digits of the carried
cost and of the realized amount. -/
theorem Sequence.storedNext_of_room (seq : Sequence f64 L assetOf inv log) (such : Such L assetOf inv fill)
    (hroom : L.Room 2 (divisorWith L log fill)) : L.Room 1 1 ∧ StoredNext inv fill := by
  obtain ⟨l, prices, p, out, hk, hpx, hp, hnext, hlot, hamount⟩ := seq.nextLot such
  have hw := seq.within
  obtain ⟨hposition, hlq, hwhole, h1, hcost⟩ := hk.divided
  change L.Room 2 (dividedBy _ _ _ _) at hroom
  rw [hposition] at hroom
  have hd0 := delta_ne_zero such.qty.pos
  have hd := such.delta_mem
  obtain ⟨hbywhole, hble⟩ := dividedBy_whole (d := fill.delta) unit_pos hlq hwhole h1
  have hbyone := h1.trans hble
  have hqty : quantityOf (inv.position fill.key) = l.qty := (carried_eq hk.lot).2
  have hlt : |(l.trade fill.delta p).1.qty| < L.top := by
    rw [Lot.trade_qty hd0, ← hqty]
    exact such.position_lt
  refine ⟨hroom.mono (by decide) hbyone (zero_le_one.trans hbyone), ?_⟩
  intro l' p' hl hp'
  cases hk.lot.symm.trans hl
  cases hpx.symm.trans hp'
  constructor
  · have hdivided := hk.divided.trade unit_pos hd0 hd hp.mem
    have hroomStep : L.Room 2 (divisorStep L.unit (divisor L.unit (quantities fill.key log)) fill.delta).2 := by
      obtain h | h := divisorStep_eq L.unit (divisor L.unit (quantities fill.key log)) fill.delta
      · rw [h, hposition]
        exact hroom
      · rw [h]
        exact hroom.mono (le_refl _) hbyone (zero_le_one.trans hbyone)
    have hprices : ∀ x ∈ entered l fill.delta p prices, L.Amount x := by
      intro x hx
      obtain rfl | hx := mem_entered hx
      · exact hp
      · exact hk.prices x hx
    obtain ⟨hnonneg, hbound⟩ := cost_lt (hk.sound.trade hd0 hp.pos) (hk.between.trade hd0) hprices hlt
    apply stored hdivided.whole hdivided.one_le hroomStep
    · rw [sq]
      exact hdivided.cost
    · rw [abs_of_nonneg hnonneg]
      exact hbound
  · have hsize : |l.qty| < L.top := hqty ▸ (hw.qty fill.key).2
    obtain ⟨hnonneg, hbound⟩ := cost_lt hk.sound hk.between hk.prices hsize
    have hvalue : |l.qty| * p < L.top ^ 2 := by
      rw [sq]
      exact mul_lt_mul'' hsize hp.lt (abs_nonneg _) hp.pos.le
    apply stored hbywhole hbyone hroom
    · rw [sq]
      exact (Lot.trade_divided unit_pos hd0 hlq hd hp.mem hwhole hcost).2
    · exact Lot.abs_realized_lt hd0 hp.pos.le hnonneg hbound hvalue

/-- **Bounded fills stay accountable while their cost can be stored.** After any sequence
of fills within the limits, the next one is accepted exactly when the cost it leaves and
the amount it realizes can be stored, and always while the product of the sizes from which
part was closed leaves room for their digits. -/
theorem prepareFill_iff_stored (hcov : L.Covered f64) (seq : Sequence f64 L assetOf inv log)
    (such : Such L assetOf inv fill) :
    (L.Room 1 1 → ((∃ change, inv.prepareFill f64 fill = .ok change) ↔ StoredNext inv fill)) ∧
    (L.Room 2 (divisorWith L log fill) → ∃ change, inv.prepareFill f64 fill = .ok change) := by
  refine ⟨fun hroom => ⟨fun ⟨_, hok⟩ => seq.storedNext such hok, seq.prepareFill_ok hcov such hroom⟩, fun hroom => ?_⟩
  obtain ⟨hroom1, hstored⟩ := seq.storedNext_of_room such hroom
  exact seq.prepareFill_ok hcov such hroom1 hstored

def oneDigit : Limits := ⟨0, 1⟩

theorem oneDigit_unit : oneDigit.unit = 1 := by norm_num [oneDigit, unit]

theorem oneDigit_top : oneDigit.top = 10 := by norm_num [oneDigit, top, unit]

theorem oneDigit_amount (n : ℕ) (h0 : 0 < n) (h : n < 10) : oneDigit.Amount (n : Exact) := by
  refine ⟨?_, by exact_mod_cast h0, ?_⟩
  · rw [oneDigit_unit]
    exact mem_multiples.mpr ⟨n, by push_cast; ring⟩
  · rw [oneDigit_top]
    exact_mod_cast h

theorem amount_one : oneDigit.Amount 1 := by exact_mod_cast oneDigit_amount 1 (by decide) (by decide)

theorem amount_two : oneDigit.Amount 2 := by exact_mod_cast oneDigit_amount 2 (by decide) (by decide)

theorem amount_three : oneDigit.Amount 3 := by exact_mod_cast oneDigit_amount 3 (by decide) (by decide)

def inUsdt : PositionKey → AssetId := fun _ => .named "USDT"

theorem oneDigit_such {inv : Inventory} {side : Side} {q p : Exact} (hq : oneDigit.Amount q) (hp : oneDigit.Amount p)
    (hsize : inv.gross 0 - |quantityOf (inv.position (0, 0))| +
      |quantityOf (inv.position (0, 0)) + (usdtFill side q p).delta| < 10) :
    Such oneDigit inUsdt inv (usdtFill side q p) := by
  refine ⟨hq, ⟨p, rfl, hp⟩, nofun, rfl, ?_⟩
  rw [oneDigit_top]
  exact hsize

/-- Three bought at 1: one of them can be sold at 2, and what is left costs a storable amount. -/
theorem prepareFill_iff_stored_three :
    (∃ change, (Inventory.empty.afterFill some (usdtFill .buy 3 1)).prepareFill some (usdtFill .sell 1 2) =
      .ok change) ∧
      StoredNext (Inventory.empty.afterFill some (usdtFill .buy 3 1)) (usdtFill .sell 1 2) := by
  have hbuy : empty.fill some (usdtFill .buy 3 1) =
      .ok (⟨some 0, .named "USDT"⟩, empty.afterFill some (usdtFill .buy 3 1)) :=
    fill_afterFill (by decide +kernel)
  have hseq : Sequence some oneDigit inUsdt (empty.afterFill some (usdtFill .buy 3 1)) [usdtFill .buy 3 1] :=
    .snoc .nil (oneDigit_such amount_three amount_one (by decide +kernel)) hbuy
  have hcov : oneDigit.Covered some := by
    refine ⟨⟨0, rfl⟩, fun x hx _ => ⟨x, ?_⟩⟩
    have h0 : x ≠ 0 := abs_pos.mp (unit_pos.trans_le hx)
    simp [toF64, h0]
  have hdiv : divisorWith oneDigit [usdtFill .buy 3 1] (usdtFill .sell 1 2) = 3 := by decide +kernel
  have hroom : oneDigit.Room 2 (divisorWith oneDigit [usdtFill .buy 3 1] (usdtFill .sell 1 2)) := by
    rw [hdiv]
    show (3 : ℚ) * 10 ^ 2 < 10 ^ maxRatioDigits
    calc (3 : ℚ) * 10 ^ 2 < 10 ^ 3 := by norm_num
      _ ≤ 10 ^ maxRatioDigits := pow_le_pow_right₀ (by norm_num) (by decide)
  have hroom1 : oneDigit.Room 1 1 := by
    rw [hdiv] at hroom
    exact hroom.mono (by decide) (by norm_num) (by norm_num)
  have hsell : Such oneDigit inUsdt (empty.afterFill some (usdtFill .buy 3 1)) (usdtFill .sell 1 2) :=
    oneDigit_such amount_one amount_two (by decide +kernel)
  obtain ⟨hiff, hwhile⟩ := prepareFill_iff_stored hcov hseq hsell
  exact ⟨hwhile hroom, (hiff hroom1).mp (hwhile hroom)⟩

variable (f64 L) in
/-- The next fill within the limits is accepted, after any sequence of such fills. -/
def AlwaysAccountable : Prop :=
  ∀ assetOf inv log fill, Sequence f64 L assetOf inv log → Such L assetOf inv fill →
    ∃ change, inv.prepareFill f64 fill = .ok change

variable (f64 l) in
/-- The sleeve alone on its symbol, with the lot it holds. -/
structure Alone (inv : Inventory) (log : List InventoryFill) : Prop where
  run : Sequence f64 oneDigit inUsdt inv log
  lot : lotOf (inv.position (0, 0)) = some l
  gross : inv.gross 0 = |l.qty|

theorem AlwaysAccountable.trade (hacc : AlwaysAccountable f64 oneDigit) (h : Alone f64 l inv log)
    (side : Side) {q p : Exact} (hq : oneDigit.Amount q) (hp : oneDigit.Amount p)
    (hsize : |l.qty + (usdtFill side q p).delta| < 10) :
    ∃ next, Alone f64 (l.trade (usdtFill side q p).delta p).1 next (log ++ [usdtFill side q p]) ∧
      Stored (l.trade (usdtFill side q p).delta p).1.cost := by
  have hqty : quantityOf (inv.position (0, 0)) = l.qty := (carried_eq h.lot).2
  have hsuch : Such oneDigit inUsdt inv (usdtFill side q p) := by
    apply oneDigit_such hq hp
    rw [hqty, h.gross, sub_self, zero_add]
    exact hsize
  obtain ⟨change, hprepared⟩ := hacc inUsdt inv log _ h.run hsuch
  obtain ⟨hstored, _⟩ := h.run.storedNext hsuch hprepared l p h.lot rfl
  obtain ⟨out, hcheck⟩ : ∃ out, checkFill f64 inv (usdtFill side q p) = .ok out := by
    unfold prepareFill at hprepared
    split at hprepared
    · cases hprepared
    · next out hout => exact ⟨out, hout⟩
  obtain ⟨next, hfill⟩ := fill_of_checkFill hcheck
  obtain ⟨row, hchecked, hposition, _⟩ := fill_ok hfill
  obtain ⟨_, _, hnext, _⟩ := checkFill_ok.mp hchecked
  obtain ⟨_, _, hkept⟩ := h.run.kept (0, 0)
  obtain ⟨hlot, _, _, _⟩ := nextPosition_lot h.lot (fun r hr => (inv.rows_ok _ r hr).2) hq.pos hp.pos rfl
    hkept.asset_eq hnext
  obtain ⟨_, hgross⟩ := sums_fill hfill
  change next.gross 0 = inv.gross 0 - |quantityOf (inv.position (0, 0))| + |quantityOf (next.position (0, 0))| at hgross
  change next.position (0, 0) = row at hposition
  rw [← hposition] at hlot
  refine ⟨next, ⟨.snoc h.run hsuch hfill, hlot, ?_⟩, hstored⟩
  rw [hgross, hqty, h.gross, (carried_eq hlot).2, sub_self, zero_add]

/-- One of three sold at 2 and bought again at 2, `n` times over. -/
theorem AlwaysAccountable.rounds (hacc : AlwaysAccountable f64 oneDigit) (n : ℕ) :
    ∃ inv log, Alone f64 ⟨3, 6 - 3 * (2 / 3) ^ n⟩ inv log ∧ Stored (6 - 3 * (2 / 3) ^ n) := by
  induction n with
  | zero =>
    have hflat : Alone f64 .flat .empty [] := ⟨.nil, rfl, by decide +kernel⟩
    obtain ⟨next, hnext, hstored⟩ := hacc.trade hflat .buy amount_three amount_one
      (by norm_num [Lot.flat, usdtFill, delta])
    have hlot : (Lot.flat.trade (usdtFill .buy 3 1).delta 1).1 = ⟨3, 6 - 3 * (2 / 3) ^ 0⟩ := by
      norm_num [Lot.trade, Lot.flat, usdtFill, delta]
    rw [hlot] at hnext hstored
    exact ⟨next, _, hnext, hstored⟩
  | succ n ih =>
    obtain ⟨inv, log, h, _⟩ := ih
    obtain ⟨sold, hsold, _⟩ := hacc.trade h .sell amount_one amount_two
      (by norm_num [usdtFill, delta])
    have hlot : ((⟨3, 6 - 3 * (2 / 3) ^ n⟩ : Lot Exact).trade (usdtFill .sell 1 2).delta 2).1 =
        ⟨2, 4 - 2 * (2 / 3) ^ n⟩ := by
      norm_num [Lot.trade, usdtFill, delta]
      ring
    rw [hlot] at hsold
    obtain ⟨next, hnext, hstored⟩ := hacc.trade hsold .buy amount_one amount_two
      (by norm_num [usdtFill, delta])
    have hlot' : ((⟨2, 4 - 2 * (2 / 3) ^ n⟩ : Lot Exact).trade (usdtFill .buy 1 2).delta 2).1 =
        ⟨3, 6 - 3 * (2 / 3) ^ (n + 1)⟩ := by
      norm_num [Lot.trade, usdtFill, delta]
      ring
    rw [hlot'] at hnext hstored
    exact ⟨next, _, hnext, hstored⟩

theorem rounds_den (k : ℕ) : (6 - 3 * (2 / 3) ^ (k + 1) : ℚ).den = 3 ^ k := by
  have hterm : (6 - 3 * (2 / 3) ^ (k + 1) : ℚ) = ((6 * 3 ^ k - 2 ^ (k + 1) : ℤ) : ℚ) / ((3 ^ k : ℤ) : ℚ) := by
    push_cast
    rw [div_pow, pow_succ 3 k]
    field_simp
  have hcoprime : Nat.Coprime (6 * 3 ^ k - 2 ^ (k + 1) : ℤ).natAbs (3 ^ k : ℤ).natAbs := by
    rw [Int.natAbs_pow]
    apply Nat.Coprime.pow_right
    apply Nat.Coprime.symm
    apply (Nat.Prime.coprime_iff_not_dvd Nat.prime_three).mpr
    intro hdvd
    have hdvd' : (3 : ℤ) ∣ 6 * 3 ^ k - 2 ^ (k + 1) := Int.natCast_dvd.mpr hdvd
    have hpow : (3 : ℤ) ∣ 2 ^ (k + 1) := (dvd_sub_right (Dvd.dvd.mul_right (by decide) _)).mp hdvd'
    exact absurd (Int.Prime.dvd_pow' Nat.prime_three hpow) (by decide)
  have hden := Rat.den_div_eq_of_coprime (by positivity) hcoprime
  rw [hterm]
  exact_mod_cast hden

/-- Three bought at 1, then one sold and one bought again at 2, over and over: whatever
the projection, a fill is refused in the end. -/
theorem not_always_accountable : ¬ ∃ f64, oneDigit.Covered f64 ∧ AlwaysAccountable f64 oneDigit := by
  intro ⟨f64, _, hacc⟩
  obtain ⟨_, _, _, hstored⟩ := hacc.rounds (3 * maxRatioDigits + 1)
  have hden := hstored.2
  rw [rounds_den, pow_mul] at hden
  exact absurd hden (not_lt.mpr (Nat.pow_le_pow_left (by decide) _))

end LiquidityMigration.Portfolio
