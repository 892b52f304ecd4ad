import LiquidityMigration.Risk.Assessment

/- Judging an order again while it is reserved: before a queued order is sent, before a price is amended, and for the
   exposures a symbol can come to without one of its orders. Each takes the order's rows out of the book, asks its
   question of what is left, and puts the rows back. The question may move the capital reference and drop fills, but
   touches no reservation, whatever the answer (`SameReservations.assessPortfolio`), so every row is restored
   (`reassessment_keeps_reservations`). -/
namespace LiquidityMigration.Risk
open Numeric Portfolio Checks RowSums Book
open Std (ExtTreeMap)

namespace MarginBook

def take (book : MarginBook) (id : String) : Option Reservation × MarginBook :=
  (book.active[id]?, { book with active := book.active.erase id })

def restore (book : MarginBook) (id : String) : Option Reservation → MarginBook
  | some row => { book with active := book.active.insert id row }
  | none => book

end MarginBook

namespace Kernel
variable (b : Binary64)

def putBack (k : Kernel) (id : String) (previous : Pending) (margin : Option Reservation) : Kernel :=
  { k with book := k.book.register id previous, margin := k.margin.restore id margin }

/-- The intent is of the order that is reserved: its symbol, its sleeve and its direction. -/
def sameOrder (previous : Pending) (intent : Intent) : Bool :=
  previous.symbol = intent.symbol ∧ previous.strategy = intent.strategy ∧
    previous.signedQty.any fun q => decide (q < 0) = decide (intent.side = .sell)

def reassessPortfolioOrder (k : Kernel) (id : String) (intent : Intent) (account : AccountView)
    (portfolio : PortfolioState) (nowNs : Nat) : Kernel × PortfolioRiskVerdict :=
  match k.book.take id with
  | (none, book) =>
    ({ k with book := book }, .deny (unknown "portfolio reassessment has no matching reservation"))
  | (some previous, book) =>
    let (row, margin) := k.margin.take id
    let freed := { k with book := book, margin := margin }
    let (k, verdict) :=
      if sameOrder previous intent then freed.assessPortfolio b intent account portfolio nowNs
      else (freed, .deny (unknown "portfolio reassessment names another order owner or direction"))
    (k.putBack id previous row, verdict)

def physicalExposureIntervalExcluding (k : Kernel) (id : String) (symbol : SymbolId) (account : AccountView) :
    Kernel × Except DenyReason PhysicalExposureInterval :=
  match k.book.take id with
  | (none, book) =>
    ({ k with book := book }, .error (unknown "physical interval exclusion has no matching reservation"))
  | (some previous, book) =>
    let freed := { k with book := book }
    let (k, result) :=
      if previous.symbol = symbol then freed.physicalIntervalFor b symbol account
      else (freed, .error (unknown "physical interval exclusion names another symbol"))
    ({ k with book := k.book.register id previous }, result)

def assessPriceAmend (k : Kernel) (id : String) (intent : Intent) (account : AccountView) (nowNs : Nat) :
    Kernel × RiskVerdict :=
  match k.book.take id with
  | (none, book) =>
    ({ k with book := book }, .deny (unknown "opening amend has no matching risk reservation"))
  | (some previous, book) =>
    let (row, margin) := k.margin.take id
    let (k, verdict) := { k with book := book, margin := margin }.assess b intent account nowNs
    (k.putBack id previous row, verdict)

end Kernel

/-- The two kernels have the same pending orders, the same cached intervals and the same active
margin rows. -/
structure SameReservations (k k' : Kernel) : Prop where
  pending : k'.book.pending = k.book.pending
  cached : k'.book.pendingBySymbol = k.book.pendingBySymbol
  active : k'.margin.active = k.margin.active

theorem Book.pendingBySymbol_of_pending {book book' : Book} (h : book'.pending = book.pending) :
    book'.pendingBySymbol = book.pendingBySymbol := by
  apply ExtTreeMap.ext_getElem?
  intro symbol
  rw [book'.cached, book.cached, h]

variable {previous : Pending} {id : String}

theorem Book.insert_forget_pending {book : Book}
    (h : book.pending[id]? = some previous) : (book.pending.erase id).insert id previous = book.pending := by
  apply ExtTreeMap.ext_getElem?
  intro other
  by_cases hid : other = id
  · rw [hid, get_insert_self, h]
  · rw [get_insert_of_ne hid, get_erase_of_ne hid]

theorem MarginBook.restore_take (book : MarginBook) (id : String) {later : MarginBook}
    (h : later.active = (book.take id).2.active) : (later.restore id (book.take id).1).active = book.active := by
  simp only [take] at h ⊢
  apply ExtTreeMap.ext_getElem?
  intro other
  cases hrow : book.active[id]? with
  | none =>
    rw [restore, h, erase_of_get_none hrow]
  | some row =>
    simp only [restore, h]
    by_cases hid : other = id
    · rw [hid, get_insert_self, hrow]
    · rw [get_insert_of_ne hid, get_erase_of_ne hid]

namespace SameReservations
variable {k k' : Kernel} (b : Binary64)

theorem of_rows (hpending : k'.book.pending = k.book.pending) (hactive : k'.margin.active = k.margin.active) :
    SameReservations k k' :=
  ⟨hpending, pendingBySymbol_of_pending hpending, hactive⟩

theorem refl (k : Kernel) : SameReservations k k := ⟨rfl, rfl, rfl⟩

theorem trans {k'' : Kernel} (h : SameReservations k k') (h' : SameReservations k' k'') : SameReservations k k'' :=
  ⟨h'.pending.trans h.pending, h'.cached.trans h.cached, h'.active.trans h.active⟩

theorem pruneThrough (k : Kernel) (ns : Nat) : SameReservations k (k.pruneThrough ns) := ⟨rfl, rfl, rfl⟩

theorem evaluateOpening (k : Kernel) (e : Evaluation) : SameReservations k (k.evaluateOpening b e).1 := by
  unfold Kernel.evaluateOpening
  split
  · exact refl k
  · split
    · exact refl k
    · dsimp only
      split
      · exact ⟨rfl, rfl, rfl⟩
      · split
        · exact ⟨rfl, rfl, rfl⟩
        · exact ⟨rfl, rfl, rfl⟩

theorem evaluateInventory (k : Kernel) (intent : Intent) (account : AccountView)
    (portfolio : Option PortfolioFacts) (nowNs : Nat) :
    SameReservations k (k.evaluateInventory b intent account portfolio nowNs).1 := by
  have hnoted (view : ViewFacts) :
      SameReservations k ((k.observeReference view false).pruneThrough account.observedNs) := ⟨rfl, rfl, rfl⟩
  unfold Kernel.evaluateInventory
  split
  · exact refl k
  · dsimp only
    split
    · exact refl k
    · split
      · exact ⟨rfl, rfl, rfl⟩
      · split
        · exact hnoted _
        · split
          · exact hnoted _
          · exact (hnoted _).trans (evaluateOpening b _ _)

theorem physicalIntervalFor (k : Kernel) (symbol : SymbolId) (account : AccountView) :
    SameReservations k (k.physicalIntervalFor b symbol account).1 := by
  unfold Kernel.physicalIntervalFor
  split
  · exact refl k
  · exact pruneThrough k _

theorem assessPortfolio (k : Kernel) (intent : Intent) (account : AccountView)
    (portfolio : PortfolioState) (nowNs : Nat) :
    SameReservations k (k.assessPortfolio b intent account portfolio nowNs).1 := by
  obtain hk | ⟨facts, hk | hk⟩ := Kernel.assessPortfolio_kernel b k intent account portfolio nowNs
  · rw [hk]
    exact refl k
  · rw [hk]
    exact evaluateInventory b k intent account (some facts) nowNs
  · rw [hk]
    exact (evaluateInventory b k intent account (some facts) nowNs).trans (pruneThrough _ _)

theorem assess (k : Kernel) (intent : Intent) (account : AccountView) (nowNs : Nat) :
    SameReservations k (k.assess b intent account nowNs).1 := by
  have heval := evaluateInventory b k intent account none nowNs
  unfold Kernel.assess
  split
  · next hev => rwa [hev] at heval
  · next hev =>
    rw [hev] at heval
    split
    · exact heval
    · exact heval

theorem register (h : k.book.pending[id]? = some previous) (hpending : k'.book.pending = (k.book.forget id).pending) :
    (k'.book.register id previous).pending = k.book.pending := by
  rw [register_pending, forget_pending, hpending, forget_pending, erase_twice]
  exact insert_forget_pending h

/-- What a question leaves of the reservations beside an order's, with the order's rows put back, is
what there was. -/
theorem putBack (h : k.book.pending[id]? = some previous)
    (hasked : SameReservations { k with book := k.book.forget id, margin := (k.margin.take id).2 } k') :
    SameReservations k (k'.putBack id previous (k.margin.take id).1) := by
  apply of_rows
  · exact register h hasked.pending
  · exact MarginBook.restore_take k.margin id hasked.active

end SameReservations

theorem Book.take_cases (book : Book) (id : String) : book.take id = (none, book) ∨
    ∃ previous, book.pending[id]? = some previous ∧ book.take id = (some previous, book.forget id) := by
  have hfst := book.take_fst id
  cases htake : book.take id with
  | mk found rest =>
    rw [htake] at hfst
    cases found with
    | none =>
      left
      unfold take at htake
      split at htake
      · exact htake.symm
      · cases htake
    | some previous =>
      right
      refine ⟨previous, hfst.symm, ?_⟩
      rw [forget, htake]

namespace Kernel
variable (b : Binary64) (k : Kernel)

theorem reassessPortfolioOrder_keeps (id : String) (intent : Intent) (account : AccountView)
    (portfolio : PortfolioState) (nowNs : Nat) :
    SameReservations k (k.reassessPortfolioOrder b id intent account portfolio nowNs).1 := by
  obtain htake | ⟨previous, hrow, htake⟩ := k.book.take_cases id
  · simp only [reassessPortfolioOrder, htake]
    exact .refl k
  · simp only [reassessPortfolioOrder, htake]
    apply SameReservations.putBack hrow
    split
    · exact .assessPortfolio b _ intent account portfolio nowNs
    · exact .refl _

theorem assessPriceAmend_keeps (id : String) (intent : Intent) (account : AccountView) (nowNs : Nat) :
    SameReservations k (k.assessPriceAmend b id intent account nowNs).1 := by
  obtain htake | ⟨previous, hrow, htake⟩ := k.book.take_cases id
  · simp only [assessPriceAmend, htake]
    exact .refl k
  · simp only [assessPriceAmend, htake]
    apply SameReservations.putBack hrow
    exact .assess b _ intent account nowNs

theorem physicalExposureIntervalExcluding_keeps (id : String) (symbol : SymbolId) (account : AccountView) :
    SameReservations k (k.physicalExposureIntervalExcluding b id symbol account).1 := by
  obtain htake | ⟨previous, hrow, htake⟩ := k.book.take_cases id
  · simp only [physicalExposureIntervalExcluding, htake]
    exact .refl k
  · simp only [physicalExposureIntervalExcluding, htake]
    have hasked : SameReservations { k with book := k.book.forget id }
        (if previous.symbol = symbol then
          ({ k with book := k.book.forget id } : Kernel).physicalIntervalFor b symbol account
        else ({ k with book := k.book.forget id },
          .error (unknown "physical interval exclusion names another symbol"))).1 := by
      split
      · exact .physicalIntervalFor b _ symbol account
      · exact .refl _
    exact .of_rows (SameReservations.register hrow hasked.pending) hasked.active

end Kernel

/-- **Asking again changes no reservation.** Judging a reserved order again, judging an amend of its
price, and asking for the exposures without it all leave the pending orders, the cached intervals and
the active margin rows as they were. -/
theorem reassessment_keeps_reservations (b : Binary64) (k : Kernel) (id : String) (intent : Intent)
    (account : AccountView) (portfolio : PortfolioState) (symbol : SymbolId) (nowNs : Nat) :
    SameReservations k (k.reassessPortfolioOrder b id intent account portfolio nowNs).1 ∧
    SameReservations k (k.assessPriceAmend b id intent account nowNs).1 ∧
    SameReservations k (k.physicalExposureIntervalExcluding b id symbol account).1 :=
  ⟨k.reassessPortfolioOrder_keeps b id intent account portfolio nowNs,
    k.assessPriceAmend_keeps b id intent account nowNs,
    k.physicalExposureIntervalExcluding_keeps b id symbol account⟩

end LiquidityMigration.Risk
