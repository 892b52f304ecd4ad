import LiquidityMigration.Risk.Assessment

/- Assessments one after another, each followed by a registration when it allows. A `Turn` is one intent with the
   account and portfolio of that moment, and the order that goes out: `Follows` says the intent's own, for at most
   the allowed quantity, with readable quantity and prices (the instrument's grid only rounds down). A registration
   puts one row into the book (`rows_reserve`). -/
namespace LiquidityMigration.Risk
open Numeric Portfolio Checks RowSums
open Std (ExtTreeMap)

namespace Book
variable {book book' : Book} {filter : Pending → Bool} {row : Pending} {t : Exact}

theorem rowQty_eq {q : Exact} (h : row.signedQty = some q) : rowQty row = .ok |q| := by
  simp [rowQty, h, orError]

theorem rowQty_nonneg {a : Exact} (h : rowQty row = .ok a) : 0 ≤ a := by
  obtain ⟨q, -, rfl⟩ := map_eq_ok.mp h
  exact abs_nonneg q

theorem quantity_cons (hrows : book'.rows.Perm (row :: book.rows)) (ht : book.quantity filter = .ok t)
    (hfilter : filter row = true) {q : Exact} (hq : row.signedQty = some q) :
    book'.quantity filter = .ok (|q| + t) := by
  have hperm := hrows.filter filter
  rw [List.filter_cons_of_pos hfilter] at hperm
  exact sumOk_perm hperm.symm (sumOk_cons.mpr ⟨_, _, rowQty_eq hq, ht, rfl⟩)

theorem quantity_skip (hrows : book'.rows.Perm (row :: book.rows)) (ht : book.quantity filter = .ok t)
    (hfilter : filter row = false) : book'.quantity filter = .ok t := by
  have hperm := hrows.filter filter
  rw [List.filter_cons_of_neg (by simp [hfilter])] at hperm
  exact sumOk_perm hperm.symm ht

theorem quantity_forget (ht : book.quantity filter = .ok t) (id : String) :
    ∃ t', (book.forget id).quantity filter = .ok t' ∧ t' ≤ t := by
  obtain hrows | ⟨row, hrows⟩ := rows_forget book id
  · rw [quantity, hrows] at ht
    exact ⟨t, ht, le_rfl⟩
  · have hsum := sumOk_perm (hrows.filter filter) ht
    by_cases hfilter : filter row = true
    · rw [List.filter_cons_of_pos hfilter, sumOk_cons] at hsum
      obtain ⟨a, t', ha, ht', rfl⟩ := hsum
      exact ⟨t', ht', le_add_of_nonneg_left (rowQty_nonneg ha)⟩
    · rw [List.filter_cons_of_neg hfilter] at hsum
      exact ⟨t, hsum, le_rfl⟩

end Book

namespace Kernel
variable (b : Binary64)

def ownPrice (order : Intent) : Option Exact :=
  reservationPrice b order (match order.kind with | .limit px => px | .market => .finite 0)

/-- The quantity an order is reserved for: unknown where it or a price of it cannot be read. -/
def ownQuantity (order : Intent) : Option Exact :=
  (approvedQuantity b order order.qty).filter fun _ => order.validatePriceProjection b = .ok ()

def reservedRow (k : Kernel) (order : Intent) : Pending :=
  pendingRow b k.book.px[order.symbol]? order (ownQuantity b order) (ownPrice b order) (ownPrice b order)

def reserve (k : Kernel) (id : String) (order : Intent) (account : AccountView) : Kernel :=
  k.registerOrderWithAccount b id order order.qty account

variable {b} {k : Kernel} {id : String} {order : Intent} {account : AccountView}

variable (b k id order account) in
theorem reserve_eq :
    ∃ (k1 : Kernel) (q : Option Exact),
    (k1 = { k with book := k.book.forget id } ∨
      k1 = ({ k with book := k.book.forget id } : Kernel).pruneThrough account.observedNs) ∧
    k.reserve b id order account =
      { k1.registerPrices b id order (approvedQuantity b order order.qty) (ownPrice b order) (ownPrice b order) with
        margin := (k1.registerPrices b id order (approvedQuantity b order order.qty) (ownPrice b order)
          (ownPrice b order)).margin.setQuantity id q } := by
  let freed : Kernel := { k with book := k.book.forget id }
  let noted := if order.reduceOnly then freed.exitMargin b order (approvedQuantity b order order.qty) account
    else (freed, approvedQuantity b order order.qty)
  refine ⟨noted.1, noted.2, ?_, rfl⟩
  show noted.1 = freed ∨ noted.1 = freed.pruneThrough account.observedNs
  unfold noted
  split
  · unfold exitMargin
    split
    · exact .inl rfl
    · exact .inr rfl
  · exact .inl rfl

theorem rows_reserve : (k.reserve b id order account).book.rows.Perm
    (k.reservedRow b order :: (k.book.forget id).rows) := by
  obtain ⟨k1, q, hk1, heq⟩ := reserve_eq b k id order account
  rw [heq]
  have hrow : pendingRow b k1.book.px[order.symbol]? order (ownQuantity b order) (ownPrice b order)
      (ownPrice b order) = k.reservedRow b order := by
    rcases hk1 with rfl | rfl <;> simp [reservedRow, pruneThrough]
  have hrest : (k1.book.forget id).rows = (k.book.forget id).rows := by
    rcases hk1 with rfl | rfl <;> simp [Book.rows, pruneThrough]
  rw [← hrow, ← hrest]
  exact Book.rows_register k1.book id _

@[simp] theorem reserve_px : (k.reserve b id order account).book.px = k.book.px := by
  obtain ⟨k1, q, rfl | rfl, heq⟩ := reserve_eq b k id order account
  · rw [heq]
    simp [registerPrices]
  · rw [heq]
    simp [registerPrices, pruneThrough]

@[simp] theorem reserve_cfg : (k.reserve b id order account).cfg = k.cfg := by
  obtain ⟨k1, q, rfl | rfl, heq⟩ := reserve_eq b k id order account <;>
    rw [heq] <;> rfl

@[simp] theorem reserve_envelope : (k.reserve b id order account).envelope = k.envelope := by
  obtain ⟨k1, q, rfl | rfl, heq⟩ := reserve_eq b k id order account <;>
    rw [heq] <;> rfl

theorem reservedRow_qty {q : Exact} (hq : order.quantity b = .ok q)
    (hprices : order.validatePriceProjection b = .ok ()) :
    (k.reservedRow b order).signedQty = some (signed order.side q) := by
  have happroved : approvedQuantity b order order.qty = some q := by
    unfold approvedQuantity
    cases hf : order.qty with
    | nonFinite =>
      rw [Intent.quantity, hf] at hq
      cases hq
    | finite value =>
      have hpos : 0 < value := by
        rw [Intent.quantity, hf] at hq
        simp only [bind_eq_ok, require_eq_ok] at hq
        exact hq.choose_spec.1
      simp [hpos, hq, Except.toOption]
  simp [reservedRow, pendingRow, ownQuantity, happroved, hprices]

end Kernel

/-- The order that goes out for an intent that was allowed a quantity. -/
structure Follows (b : Binary64) (intent order : Intent) (allowed : Exact) : Prop where
  strategy : order.strategy = intent.strategy
  symbol : order.symbol = intent.symbol
  side : order.side = intent.side
  reduceOnly : order.reduceOnly = intent.reduceOnly
  quantity : ∃ q, order.quantity b = .ok q ∧ q ≤ allowed
  prices : order.validatePriceProjection b = .ok ()

/-- One intent put to the kernel, and the order that goes out if it is allowed. -/
structure Turn where
  intent : Intent
  account : AccountView
  portfolio : PortfolioState
  nowNs : Nat
  id : String
  order : Intent

namespace Turn
variable (b : Binary64)

def verdict (t : Turn) (k : Kernel) : Kernel × PortfolioRiskVerdict :=
  k.assessPortfolio b t.intent t.account t.portfolio t.nowNs

/-- The kernel after the turn: assessed, and registered when allowed. -/
def next (t : Turn) (k : Kernel) : Kernel :=
  match t.verdict b k with
  | (k, .allow _ _) => k.reserve b t.id t.order t.account
  | (k, .deny _) => k

def Proper (t : Turn) (k : Kernel) : Prop :=
  ∀ q v, (t.verdict b k).2 = .allow q v → Follows b t.intent t.order q

def run (k : Kernel) (ts : List Turn) : Kernel := ts.foldl (fun k t => t.next b k) k

/-- Every turn of a sequence meets a condition on the kernel it is put to. -/
def Throughout (P : Kernel → Turn → Prop) : Kernel → List Turn → Prop
  | _, [] => True
  | k, t :: ts => P k t ∧ Throughout P (t.next b k) ts

variable {b}

theorem run_invariant {P : Kernel → Turn → Prop} {I : Kernel → Prop}
    (hstep : ∀ k t, P k t → I k → I (t.next b k)) {k : Kernel} {ts : List Turn} (h : Throughout b P k ts) (hk : I k) :
    I (run b k ts) := by
  induction ts generalizing k with
  | nil => exact hk
  | cons t ts ih => exact ih h.2 (hstep k t h.1 hk)

theorem next_cases (t : Turn) (k : Kernel) :
    ((t.next b k).book.pending = k.book.pending ∧ (t.next b k).book.px = k.book.px) ∨
    ∃ k' q v, t.verdict b k = (k', .allow q v) ∧ t.next b k = k'.reserve b t.id t.order t.account := by
  have hkeeps := Kernel.assessPortfolio_keeps b k t.intent t.account t.portfolio t.nowNs
  unfold next
  split
  · next k' q v h => exact .inr ⟨k', q, v, h, rfl⟩
  · next k' r h =>
    left
    rw [verdict] at h
    rwa [h] at hkeeps

theorem proper_of_verdict {t : Turn} {k : Kernel} {q : Exact} {v : Bool}
    (h : (t.verdict b k).2 = .allow q v) (hf : Follows b t.intent t.order q) : t.Proper b k := by
  intro q' v' h'
  obtain ⟨rfl, -⟩ := PortfolioRiskVerdict.allow.inj (h.symm.trans h')
  exact hf

end Turn

namespace OneUnit

def limits : KernelConfig where
  maxAccountViewAgeNs := 120000000000
  envelope := {
    tracksEquity := false, referenceUsdt := 1000, equityFraction := 1, expandDeadBandFraction := 0
    grossNotionalMultiple := 1, disasterStopFraction := 1 / 4, maxComponentGrossNotionalUsdt := 1000
    maxSymbolNotionalUsdt := 1000, maxInitialMarginUsdt := 1000
    reference_pos := by norm_num, multiple_pos := by norm_num, equity_fraction := by norm_num
    dead_band := le_rfl, disaster_stop := by norm_num, caps_pos := by norm_num, margin_le := le_rfl }
  leverage := 1
  qtyTolerance := 0
  maxRollingLossFraction := 1 / 2
  leverage_pos := by norm_num
  tolerance_nonneg := le_rfl
  loss_fraction := by norm_num

def kernel (px : ℚ) : Kernel := (Kernel.new .unrounded limits).observePrice 0 (.finite px)

def account (entry stop : ℚ) : AccountView where
  exactAmounts := none
  equityUsdt := .finite 1000
  availableUsdt := .finite 1000
  positions := [⟨none, 0, .buy, .finite 1, .finite entry, true, .finite stop, none⟩]
  observedNs := 1

def portfolio (entry stop : ℚ) : PortfolioState := ⟨2, [⟨0, 0, 1, some entry, some stop, .named "USDT"⟩]⟩

def order (side : Side) (px : ℚ) (stop : Option ℚ) (reduceOnly : Bool) : Intent where
  strategy := 0
  symbol := 0
  side := side
  qty := .finite 1
  exactQuantity := none
  exactPrices := none
  kind := .limit (.finite px)
  stop := stop.map .finite
  reduceOnly := reduceOnly

/-- The order put to the kernel, and sent as it is when it is allowed. -/
def turn (entry stop : ℚ) (id : String) (order : Intent) : Turn :=
  ⟨order, account entry stop, portfolio entry stop, 2, id, order⟩

/-- Half of what a sleeve has, taken off by an exit. -/
def halfExit (id : String) : Turn := turn 10 8 id { order .sell 10 none true with qty := .finite (1 / 2) }

theorem follows_self {order : Intent} {q : Exact} (hq : order.quantity .unrounded = .ok q)
    (hpx : order.validatePriceProjection .unrounded = .ok ()) : Follows .unrounded order order q :=
  ⟨rfl, rfl, rfl, rfl, ⟨q, hq, le_rfl⟩, hpx⟩

end OneUnit

end LiquidityMigration.Risk
