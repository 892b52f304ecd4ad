import LiquidityMigration.Risk.Account

/- Reservations, and the fills newer than the account view. `pending` has one row for each order that may still fill;
   `pendingBySymbol` caches for each symbol how many there are, how many of unknown quantity, and the sums of the
   negative and the positive quantities. Every `Book` carries the proof that the cache is what the rows give
   (`cached`), and that observed prices are positive. -/
namespace LiquidityMigration.Risk
open Numeric Portfolio Checks RowSums
open Std (ExtTreeMap)

structure Pending where
  strategy : StrategyId
  symbol : SymbolId
  signedQty : Option Exact
  reduceOnly : Bool
  (px stopFraction : Option Exact)
  deriving DecidableEq

/-- A fill, with the stop distance its order was reserved at. -/
structure RecentFill where
  recvNs : Nat
  symbol : SymbolId
  (qty stop : Option Exact)
  deriving DecidableEq

structure RecentExposure where
  signedQty : Exact
  stopFraction : Option Exact
  deriving DecidableEq

abbrev RecentFills := ExtTreeMap SymbolId RecentExposure

def maxPrice : Option Exact → Option Exact → Option Exact
  | some a, some b => some (max a b)
  | some a, none => some a
  | none, b => b

structure PendingInterval where
  (rows unknown : Nat)
  (low high : Exact)
  deriving DecidableEq

namespace PendingInterval

def zero : PendingInterval := ⟨0, 0, 0, 0⟩

def insert (interval : PendingInterval) (pending : Pending) : PendingInterval :=
  match pending.signedQty with
  | some qty =>
    if qty < 0 then { interval with rows := interval.rows + 1, low := interval.low + qty }
    else { interval with rows := interval.rows + 1, high := interval.high + qty }
  | none => { interval with rows := interval.rows + 1, unknown := interval.unknown + 1 }

def remove (interval : PendingInterval) (pending : Pending) : PendingInterval :=
  match pending.signedQty with
  | some qty =>
    if qty < 0 then { interval with rows := interval.rows - 1, low := interval.low - qty }
    else { interval with rows := interval.rows - 1, high := interval.high - qty }
  | none => { interval with rows := interval.rows - 1, unknown := interval.unknown - 1 }

variable (ps : List Pending)

def ofRows : PendingInterval where
  rows := ps.length
  unknown := ps.countP fun p => p.signedQty = none
  low := (ps.map (fun p => min (p.signedQty.getD 0) 0)).sum
  high := (ps.map (fun p => max (p.signedQty.getD 0) 0)).sum

theorem ofRows_perm {ps qs : List Pending} (h : ps.Perm qs) : ofRows ps = ofRows qs := by
  simp only [ofRows, h.length_eq, h.countP_eq, (h.map _).sum_eq]

theorem insert_ofRows (p : Pending) : (ofRows ps).insert p = ofRows (p :: ps) := by
  unfold insert
  cases hq : p.signedQty with
  | none => simp [ofRows, hq]
  | some qty =>
    by_cases hneg : qty < 0
    · simp [ofRows, hq, hneg, hneg.le, add_comm]
    · simp [ofRows, hq, hneg, not_lt.mp hneg, add_comm]

theorem remove_ofRows (p : Pending) : (ofRows (p :: ps)).remove p = ofRows ps := by
  unfold remove
  cases hq : p.signedQty with
  | none => simp [ofRows, hq]
  | some qty =>
    by_cases hneg : qty < 0
    · simp [ofRows, hq, hneg, hneg.le]
    · simp [ofRows, hq, hneg, not_lt.mp hneg]

/-- The cache entry of a symbol with these rows: none where there are none. -/
def entry : Option PendingInterval := if ps.isEmpty then none else some (ofRows ps)

theorem entry_perm {ps qs : List Pending} (h : ps.Perm qs) : entry ps = entry qs := by
  rw [entry, entry, ofRows_perm h, h.isEmpty_eq]

@[simp] theorem entry_cons (p : Pending) (ps : List Pending) : entry (p :: ps) = some (ofRows (p :: ps)) := rfl

theorem entry_getD : (entry ps).getD zero = ofRows ps := by
  cases ps with
  | nil => rfl
  | cons p ps => rfl

end PendingInterval

open PendingInterval

def onSymbol (pending : ExtTreeMap String Pending) (symbol : SymbolId) : List Pending :=
  (pending.toList.map Prod.snd).filter fun p => p.symbol = symbol

structure Book where
  px : ExtTreeMap SymbolId Exact
  pending : ExtTreeMap String Pending
  pendingBySymbol : ExtTreeMap SymbolId PendingInterval
  recentFills : List RecentFill
  cached : ∀ symbol : SymbolId, pendingBySymbol[symbol]? = PendingInterval.entry (onSymbol pending symbol)
  px_pos : ∀ (symbol : SymbolId) (px' : Exact), px[symbol]? = some px' → 0 < px'

section onSymbol
variable {pending : ExtTreeMap String Pending} {id : String} {p : Pending} {symbol : SymbolId}

theorem onSymbol_of_get (h : pending[id]? = some p) :
    (onSymbol pending p.symbol).Perm (p :: onSymbol (pending.erase id) p.symbol) := by
  have hrows := ((rows_of_get h).map Prod.snd).filter fun q => q.symbol = p.symbol
  rwa [List.map_cons, List.filter_cons_of_pos (by simp)] at hrows

theorem onSymbol_erase_of_ne (h : pending[id]? = some p) (hne : p.symbol ≠ symbol) :
    (onSymbol pending symbol).Perm (onSymbol (pending.erase id) symbol) := by
  have hrows := ((rows_of_get h).map Prod.snd).filter fun q => q.symbol = symbol
  rwa [List.map_cons, List.filter_cons_of_neg (by simpa using hne)] at hrows

theorem onSymbol_insert (hnew : pending[id]? = none) :
    (onSymbol (pending.insert id p) p.symbol).Perm (p :: onSymbol pending p.symbol) := by
  have hrows := onSymbol_of_get (get_insert_self (m := pending) (k := id) (v := p))
  rwa [erase_insert_self, erase_of_get_none hnew] at hrows

theorem onSymbol_insert_of_ne (hnew : pending[id]? = none) (hne : p.symbol ≠ symbol) :
    (onSymbol (pending.insert id p) symbol).Perm (onSymbol pending symbol) := by
  have hrows := onSymbol_erase_of_ne (get_insert_self (m := pending) (k := id) (v := p)) hne
  rwa [erase_insert_self, erase_of_get_none hnew] at hrows

end onSymbol

namespace Book

def empty : Book where
  px := ∅
  pending := ∅
  pendingBySymbol := ∅
  recentFills := []
  cached := fun _ => by simp [onSymbol, PendingInterval.entry]
  px_pos := fun _ _ h => by simp at h

variable (book : Book) (id : String) (symbol : SymbolId) (p : Pending)

def rows : List Pending := book.pending.toList.map Prod.snd

def observeExactPx (px : Exact) : Book :=
  if h : 0 < px then
    { book with
      px := book.px.insert symbol px
      px_pos := by
        intro s px' hs
        rw [ExtTreeMap.getElem?_insert] at hs
        split at hs
        · cases hs
          exact h
        · exact book.px_pos s px' hs }
  else book

def observePx (px : F64) : Book :=
  match fromLegacyF64 px with
  | .ok px => book.observeExactPx symbol px
  | .error _ => book

def uncache (cache : ExtTreeMap SymbolId PendingInterval) (p : Pending) : ExtTreeMap SymbolId PendingInterval :=
  let interval := (cache[p.symbol]?.getD .zero).remove p
  if interval.rows = 0 then cache.erase p.symbol else cache.insert p.symbol interval

theorem uncache_cached {book : Book} {id : String} {p : Pending} (h : book.pending[id]? = some p)
    (symbol : SymbolId) : (uncache book.pendingBySymbol p)[symbol]? =
      entry (onSymbol (book.pending.erase id) symbol) := by
  have hinterval : (book.pendingBySymbol[p.symbol]?.getD .zero).remove p =
      ofRows (onSymbol (book.pending.erase id) p.symbol) := by
    rw [book.cached, entry_getD, ofRows_perm (onSymbol_of_get h),
      remove_ofRows]
  simp only [uncache, hinterval]
  by_cases hs : p.symbol = symbol
  · obtain rfl := hs
    -- the entry goes with the last row of the symbol
    cases hrows : onSymbol (book.pending.erase id) p.symbol with
    | nil => simp [ofRows, entry]
    | cons q qs => simp [ofRows]
  · have hother : book.pendingBySymbol[symbol]? =
        entry (onSymbol (book.pending.erase id) symbol) := by
      rw [book.cached, entry_perm (onSymbol_erase_of_ne h hs)]
    split
    · rw [get_erase_of_ne (Ne.symm hs), hother]
    · rw [get_insert_of_ne (Ne.symm hs), hother]

def take : Option Pending × Book :=
  match h : book.pending[id]? with
  | none => (none, book)
  | some p => (some p,
      { book with
        pending := book.pending.erase id
        pendingBySymbol := uncache book.pendingBySymbol p
        cached := uncache_cached h })

def forget : Book := (book.take id).2

@[simp] theorem take_fst : (book.take id).1 = book.pending[id]? := by
  unfold take
  split
  · next h => rw [h]
  · next p h => exact h.symm

@[simp] theorem forget_pending : (book.forget id).pending = book.pending.erase id := by
  unfold forget take
  split
  · next h => rw [erase_of_get_none h]
  · rfl

@[simp] theorem forget_px : (book.forget id).px = book.px := by
  unfold forget take
  split <;> rfl

@[simp] theorem forget_recentFills : (book.forget id).recentFills = book.recentFills := by
  unfold forget take
  split <;> rfl

/-- An order under an id it already has replaces the row. -/
def register : Book :=
  let freed := book.forget id
  { freed with
    pending := freed.pending.insert id p
    pendingBySymbol := freed.pendingBySymbol.insert p.symbol ((freed.pendingBySymbol[p.symbol]?.getD .zero).insert p)
    cached := by
      intro symbol
      have hnew : freed.pending[id]? = none := by
        show (book.forget id).pending[id]? = none
        rw [forget_pending, get_erase_self]
      by_cases hs : p.symbol = symbol
      · obtain rfl := hs
        rw [get_insert_self, freed.cached, PendingInterval.entry_getD, PendingInterval.insert_ofRows,
          PendingInterval.entry_perm (onSymbol_insert hnew), PendingInterval.entry_cons]
      · rw [get_insert_of_ne (Ne.symm hs), freed.cached,
          PendingInterval.entry_perm (onSymbol_insert_of_ne hnew hs)] }

@[simp] theorem register_pending :
    (book.register id p).pending = (book.forget id).pending.insert id p := rfl

@[simp] theorem register_px : (book.register id p).px = book.px :=
  forget_px book id

@[simp] theorem register_recentFills : (book.register id p).recentFills = book.recentFills :=
  forget_recentFills book id

theorem rows_register : (book.register id p).rows.Perm (p :: (book.forget id).rows) := by
  have hrows := (rows_insert (m := (book.forget id).pending) (k := id) (v := p)).map Prod.snd
  rwa [erase_of_get_none (by rw [forget_pending, get_erase_self])] at hrows

theorem rows_forget :
    (book.rows = (book.forget id).rows) ∨ ∃ p, book.rows.Perm (p :: (book.forget id).rows) := by
  cases h : book.pending[id]? with
  | none =>
    left
    rw [rows, rows, forget_pending, erase_of_get_none h]
  | some p =>
    right
    refine ⟨p, ?_⟩
    rw [rows, rows, forget_pending]
    exact (rows_of_get h).map Prod.snd

/-- What is left of an order's quantity after a fill; unknown where either is. -/
def leftAfter (old filled remaining : Option Exact) : Option Exact := do
  let old ← old
  let filled ← filled
  let left := remaining.getD (|old| - |filled|)
  some (if 0 < left then (if old < 0 then -left else left) else 0)

def onFillWithRemaining (qty : Option Exact) (recvNs : Nat)
    (remaining : Option Exact) : Book :=
  let stop := book.pending[id]?.bind Pending.stopFraction
  let book := { book with recentFills := book.recentFills ++ [RecentFill.mk recvNs symbol qty stop] }
  match book.take id with
  | (none, book) => book
  | (some p, book) =>
    let p := { p with signedQty := leftAfter p.signedQty qty remaining }
    if p.signedQty = some 0 then book else book.register id p

def rowQty : Except String Exact :=
  (orError p.signedQty "pending order quantity is unknown").map fun q => |q|

/-- The summed quantity of the orders that pass the filter. -/
def quantity (filter : Pending → Bool) : Except String Exact := sumOk rowQty (book.rows.filter filter)

def pendingReduceQty : Except String Exact :=
  book.quantity fun p => p.reduceOnly ∧ p.symbol = symbol

def ownedReduceQty (strategy : StrategyId) (symbol : SymbolId) : Except String Exact :=
  book.quantity fun p => p.reduceOnly ∧ p.strategy = strategy ∧ p.symbol = symbol

def onSide (side : Side) (p : Pending) : Bool :=
  match p.signedQty with
  | some qty => decide (qty < 0) = decide (side = .sell)
  | none => true

def ownedOpenQty (strategy : StrategyId) (symbol : SymbolId) (side : Side) : Except String Exact :=
  book.quantity fun p => ¬ p.reduceOnly ∧ p.strategy = strategy ∧ p.symbol = symbol ∧ onSide side p

def pendingOpenQty (side : Side) : Except String Exact :=
  book.quantity fun p => ¬ p.reduceOnly ∧ p.symbol = symbol ∧ onSide side p

/-- What an order counts for at a price, or at its own where that is higher. -/
def rowNotional (price : Exact) (p : Pending) : Except String Exact := do
  let qty ← orError p.signedQty "pending order quantity is unknown"
  let px ← orError p.px "pending order price is unknown"
  .ok (|qty| * max px price)

def pendingSymbolNotional (price : Exact) : Except String Exact :=
  sumOk (rowNotional price) (book.rows.filter (fun p => p.symbol = symbol ∧ ¬ p.reduceOnly))

def physicalInterval (settled : Exact) : Except String (Exact × Exact) :=
  match book.pendingBySymbol[symbol]? with
  | some interval =>
    if 0 < interval.unknown then .error "pending physical quantity is unknown"
    else .ok (settled + interval.low, settled + interval.high)
  | none => .ok (settled, settled)

def pruneThrough (observedNs : Nat) : Book :=
  { book with recentFills := book.recentFills.filter (fun fill => observedNs < fill.recvNs) }

@[simp] theorem pruneThrough_pending (ns : Nat) : (book.pruneThrough ns).pending = book.pending := rfl

@[simp] theorem pruneThrough_px (ns : Nat) : (book.pruneThrough ns).px = book.px := rfl

@[simp] theorem pruneThrough_twice (ns : Nat) : (book.pruneThrough ns).pruneThrough ns = book.pruneThrough ns := by
  simp [pruneThrough]

/-- One fill's turn in the loop of `Book::fills_after`. -/
def addRecent (net : RecentFills) (fill : RecentFill) : Except String RecentFills := do
  let qty ← orError fill.qty "recent execution quantity is unknown"
  let row := net[fill.symbol]?.getD ⟨0, some 0⟩
  .ok (net.insert fill.symbol
    ⟨row.signedQty + qty, do let a ← row.stopFraction; let b ← fill.stop; some (max a b)⟩)

/-- `Book::fills_after`, on a book already pruned through the view. -/
def netFills : Except String RecentFills := book.recentFills.foldlM addRecent ∅

/-- The part an opening order has in the risk: its price and stop distance, and its quantity. -/
def riskPart (price : SymbolId → Option Exact) (p : Pending) : Except String (Option ((Exact ×ₗ Exact) × Exact)) := do
  let qty ← orError p.signedQty "pending order quantity is unknown"
  if p.reduceOnly ∨ qty = 0 then .ok none
  else
    let fraction ← orError p.stopFraction "an in-flight opening order has no readable stop distance"
    let px ← orError (maxPrice (price p.symbol) p.px) "no price for an in-flight opening order"
    .ok (some (toLex (px, fraction), |qty|))

/-- For each price and stop distance, the notional and the distance. -/
def pendingRiskRows (price : SymbolId → Option Exact) : Except String (List (Exact × Exact)) :=
  (collect (riskPart price) book.rows).map (fun parts =>
    (group compare parts).toList.map (fun row => (row.2 * (ofLex row.1).1, (ofLex row.1).2)))

end Book

end LiquidityMigration.Risk
