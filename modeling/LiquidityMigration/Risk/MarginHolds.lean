import LiquidityMigration.Risk.Margin

/- What merging retired orders does to the margin that is required. `MarginLedger` is the margin book without the
   merging: every retired order keeps its own row and latest confirmation. Both are run on the same events.

   Quantities add up only where none is negative; an unknown price is replaced by the other order's; and an attempt
   drops the confirmation of a working order, so that an older one can take its place. `Orderly` excludes these three
   (`unknown_price_is_priced` has an instance of each). Then the book requires at least what the ledger does
   (`Covered.required_le`), and an order is released only by a query at or after its latest confirmation. -/
namespace LiquidityMigration.Risk
open Numeric Portfolio Checks RowSums List MarginBook Option
open Std (ExtTreeMap)

inductive MarginEvent where
  | register (id : String) (symbol : SymbolId) (quantity px : Option Exact)
  | setQuantity (id : String) (quantity : Option Exact)
  | attempted (id : String)
  | accepted (id : String) (confirmedNs : Nat)
  | retire (id : String) (confirmedNs : Nat)
  | observe (ns : Nat)
  deriving DecidableEq

def MarginBook.handle (book : MarginBook) : MarginEvent → MarginBook
  | .register id symbol quantity px => book.register id symbol quantity px
  | .setQuantity id quantity => book.setQuantity id quantity
  | .attempted id => book.attempted id
  | .accepted id confirmedNs => book.accepted id confirmedNs
  | .retire id confirmedNs => book.retire id confirmedNs
  | .observe ns => book.observe ns

/-! ## The ledger without merging -/

/-- An order that is finished: its last row, and the latest confirmation recorded for it. -/
structure HeldOrder where
  id : String
  symbol : SymbolId
  (quantity px : Option Exact)
  (confirmedNs latestNs : Nat)
  deriving DecidableEq

structure MarginLedger where
  active : ExtTreeMap String Reservation
  /-- The latest confirmation of each active order since it was registered, zero where there is none. -/
  latestNs : String → Nat
  (retired released : List HeldOrder)
  frontierNs : Nat

namespace MarginLedger

def empty : MarginLedger := ⟨∅, fun _ => 0, [], [], 0⟩

variable (l : MarginLedger)

def modify (id : String) (change : Reservation → Reservation) : MarginLedger :=
  match l.active[id]? with
  | some row => { l with active := l.active.insert id (change row) }
  | none => l

def confirm (id : String) (confirmedNs : Nat) : MarginLedger :=
  { l with latestNs := fun other => if other = id then max (l.latestNs id) confirmedNs else l.latestNs other }

def finished (id : String) (row : Reservation) (confirmedNs : Nat) : HeldOrder where
  id := id
  symbol := row.symbol
  quantity := row.quantity
  px := row.px
  confirmedNs := max confirmedNs row.phase.earlier
  latestNs := max (l.latestNs id) confirmedNs

def retire (id : String) (confirmedNs : Nat) : MarginLedger :=
  match l.active[id]? with
  | none => l
  | some row =>
    let order := l.finished id row confirmedNs
    let l := { l with active := l.active.erase id }
    if 0 < order.confirmedNs ∧ order.confirmedNs ≤ l.frontierNs then { l with released := order :: l.released }
    else { l with retired := order :: l.retired }

/-- An account query at `ns` shows the order. -/
def Shown (ns : Nat) (confirmedNs : Nat) : Prop := 0 < confirmedNs ∧ confirmedNs ≤ ns
  deriving Decidable

theorem Shown.trans {ns c latest : Nat} (hns : Shown ns c) (h : 0 < c → Shown c latest) : Shown ns latest :=
  ⟨(h hns.1).1, (h hns.1).2.trans hns.2⟩

def observe (ns : Nat) : MarginLedger :=
  let frontierNs := max l.frontierNs ns
  { l with
    frontierNs := frontierNs
    retired := l.retired.filter (fun o => ¬ Shown frontierNs o.confirmedNs)
    released := l.retired.filter (fun o => Shown frontierNs o.confirmedNs) ++ l.released }

def handle : MarginEvent → MarginLedger
  | .register id symbol quantity px =>
    { l with
      active := l.active.insert id ⟨symbol, quantity, px, .queued⟩
      latestNs := fun other => if other = id then 0 else l.latestNs other }
  | .setQuantity id quantity => l.modify id fun row => { row with quantity := quantity }
  | .attempted id => l.modify id fun row => { row with phase := .attempted }
  | .accepted id confirmedNs =>
    match l.active[id]? with
    | some _ =>
      (l.confirm id confirmedNs).modify id
        fun row => { row with phase := .working (max confirmedNs row.phase.earlier) }
    | none => l
  | .retire id confirmedNs => l.retire id confirmedNs
  | .observe ns => l.observe ns

/-- The notional of one row at a query: nothing where the query shows it already. -/
def rowNotional (ns : Nat) (leverage : Exact) (price : SymbolId → Option Exact) (symbol : SymbolId)
    (quantity px : Option Exact) (confirmedNs : Nat) : Except String Exact :=
  if Shown ns confirmedNs then .ok 0
  else (MarginBook.part leverage price symbol quantity px).map fun y => y.elim 0 (fun p => p.2 * p.1)

/-- The margin of a notional, as `MarginBook::required` works it out in the end. -/
def margin (total leverage : Exact) : Except String Exact :=
  if total = 0 then .ok total
  else (checkedDiv total leverage).mapError fun _ => "unreadable leverage"

def required (ns : Nat) (leverage : Exact) (price : SymbolId → Option Exact) : Except String Exact := do
  require (l.frontierNs ≤ ns) "account query predates the margin confirmation frontier"
  let active ← sumOk (fun row : String × Reservation =>
    rowNotional ns leverage price row.2.symbol row.2.quantity row.2.px row.2.phase.earlier) l.active.toList
  let retired ← sumOk (fun o : HeldOrder =>
    rowNotional ns leverage price o.symbol o.quantity o.px o.confirmedNs) l.retired
  margin (active + retired) leverage

end MarginLedger

/-! ## Runs -/

/-- The margin book and the ledger, on the same events. -/
structure MarginBooks where
  book : MarginBook
  ledger : MarginLedger

namespace MarginBooks

def empty : MarginBooks := ⟨.empty, .empty⟩

def handle (s : MarginBooks) (event : MarginEvent) : MarginBooks := ⟨s.book.handle event, s.ledger.handle event⟩

def run (s : MarginBooks) (events : List MarginEvent) : MarginBooks := events.foldl handle s

def InOrder (l : MarginLedger) (id : String) (row : Reservation) (confirmedNs : Nat) : Prop :=
  max confirmedNs row.phase.earlier = 0 ∨ l.latestNs id ≤ max confirmedNs row.phase.earlier
  deriving Decidable

/-- The event leaves no row that says less than it stands for: quantities are not negative and prices
positive where they are known; an order's confirmations come in order unless the order is still working
with the later one; and an order is retired with a known price exactly where the hold it joins has one. -/
def Orderly (s : MarginBooks) : MarginEvent → Prop
  | .register _ _ quantity px => (∀ q ∈ quantity, 0 ≤ q) ∧ ∀ p ∈ px, 0 < p
  | .setQuantity _ quantity => ∀ q ∈ quantity, 0 ≤ q
  | .attempted _ => True
  | .accepted id confirmedNs => ∀ row ∈ s.ledger.active[id]?, InOrder s.ledger id row confirmedNs
  | .retire id confirmedNs => ∀ row ∈ s.ledger.active[id]?, InOrder s.ledger id row confirmedNs ∧
      ∀ hold ∈ s.book.retired[row.symbol]?, hold.px.isSome = row.px.isSome
  | .observe _ => True

instance (s : MarginBooks) (event : MarginEvent) : Decidable (s.Orderly event) :=
  match event with
  | .register _ _ _ _ => inferInstanceAs (Decidable (_ ∧ _))
  | .setQuantity _ quantity => inferInstanceAs (Decidable (∀ q ∈ quantity, 0 ≤ q))
  | .attempted _ => inferInstanceAs (Decidable True)
  | .accepted id confirmedNs =>
    inferInstanceAs (Decidable (∀ row ∈ s.ledger.active[id]?, InOrder s.ledger id row confirmedNs))
  | .retire id confirmedNs =>
    inferInstanceAs (Decidable (∀ row ∈ s.ledger.active[id]?, InOrder s.ledger id row confirmedNs ∧
      ∀ hold ∈ s.book.retired[row.symbol]?, hold.px.isSome = row.px.isSome))
  | .observe _ => inferInstanceAs (Decidable True)

def OrderlyRun (s : MarginBooks) : List MarginEvent → Prop
  | [] => True
  | event :: events => s.Orderly event ∧ OrderlyRun (s.handle event) events

/-- Runs can be checked event by event. -/
instance (s : MarginBooks) (events : List MarginEvent) : Decidable (s.OrderlyRun events) :=
  match events with
  | [] => inferInstanceAs (Decidable True)
  | event :: events =>
    have : Decidable (OrderlyRun (s.handle event) events) := instDecidableOrderlyRun (s.handle event) events
    inferInstanceAs (Decidable (_ ∧ _))

end MarginBooks

/-! ## One merged row -/

open MarginLedger (Shown rowNotional margin)

section hold
variable {hold : Retired} {o : HeldOrder} {os : List HeldOrder}

/-- The merged row says as much as the order's own. -/
structure Absorbs (hold : Retired) (o : HeldOrder) : Prop where
  quantity : hold.quantity.isSome = true → ∃ q, o.quantity = some q ∧ 0 ≤ q
  px_unknown : o.px = none → hold.px = none
  px_le : ∀ p, o.px = some p → 0 < p ∧ ∃ highest, hold.px = some highest ∧ p ≤ highest
  confirmed : 0 < hold.confirmedNs → 0 < o.confirmedNs ∧ o.confirmedNs ≤ hold.confirmedNs

def amount (o : HeldOrder) : Exact := o.quantity.getD 0

/-- The merged row stands for these orders, and maybe for more. -/
structure StandsFor (hold : Retired) (os : List HeldOrder) : Prop where
  absorbs : ∀ o ∈ os, Absorbs hold o
  sum_le : ∀ q, hold.quantity = some q → (os.map amount).sum ≤ q

theorem Absorbs.amount_nonneg (h : Absorbs hold o) (hq : hold.quantity.isSome = true) : 0 ≤ amount o := by
  obtain ⟨q, hoq, hpos⟩ := h.quantity hq
  rw [amount, hoq]
  exact hpos

theorem StandsFor.sublist {fewer : List HeldOrder} (h : StandsFor hold os) (hsub : fewer.Sublist os) :
    StandsFor hold fewer := by
  refine ⟨fun o ho => h.absorbs o (hsub.subset ho), fun q hq => ?_⟩
  refine le_trans ((hsub.map amount).sum_le_sum ?_) (h.sum_le q hq)
  intro x hx
  obtain ⟨o, ho, rfl⟩ := mem_map.mp hx
  exact (h.absorbs o ho).amount_nonneg (by rw [hq]; rfl)

/-- The quantity of a row is not negative and its price positive, where they are known. -/
structure Plain (quantity px : Option Exact) : Prop where
  quantity : ∀ q ∈ quantity, 0 ≤ q
  px : ∀ p ∈ px, 0 < p

theorem Absorbs.self (h : Plain o.quantity o.px) : Absorbs ⟨o.quantity, o.px, o.confirmedNs⟩ o := by
  refine ⟨?_, id, fun p hp => ⟨h.px p hp, p, hp, le_rfl⟩, fun hpos => ⟨hpos, le_rfl⟩⟩
  intro hq
  obtain ⟨q, hq⟩ := isSome_iff_exists.mp hq
  exact ⟨q, hq, h.quantity q hq⟩

theorem StandsFor.first (h : Plain o.quantity o.px) : StandsFor ⟨o.quantity, o.px, o.confirmedNs⟩ [o] := by
  constructor
  · intro other hother
    rw [mem_singleton.mp hother]
    exact .self h
  · intro q hq
    have hoq : o.quantity = some q := hq
    simp [amount, hoq]

section merge
variable {row : Reservation} {confirmedNs : Nat}

theorem merge_quantity {q : Exact} (h : (MarginBook.merge hold row confirmedNs).quantity = some q) :
    ∃ a c, hold.quantity = some a ∧ row.quantity = some c ∧ q = a + c := by
  simp only [MarginBook.merge] at h
  cases ha : hold.quantity with
  | none => simp [ha] at h
  | some a =>
    cases hc : row.quantity with
    | none => simp [ha, hc] at h
    | some c =>
      simp only [ha, hc, bind_eq_bind, bind_some, some.injEq] at h
      exact ⟨a, c, rfl, rfl, h.symm⟩

theorem merge_confirmed (h : 0 < (MarginBook.merge hold row confirmedNs).confirmedNs) :
    0 < hold.confirmedNs ∧ 0 < confirmedNs ∧
    (MarginBook.merge hold row confirmedNs).confirmedNs = max hold.confirmedNs confirmedNs := by
  simp only [MarginBook.merge] at h ⊢
  split at h
  · exact absurd h (lt_irrefl 0)
  · next hne =>
    rw [not_or] at hne
    rw [if_neg (not_or.mpr hne)]
    exact ⟨Nat.pos_of_ne_zero hne.1, Nat.pos_of_ne_zero hne.2, rfl⟩

theorem Absorbs.merge (h : Absorbs hold o) (hpx : hold.px.isSome = row.px.isSome) :
    Absorbs (MarginBook.merge hold row confirmedNs) o := by
  refine ⟨?_, ?_, ?_, ?_⟩
  · intro hq
    obtain ⟨q, hq⟩ := isSome_iff_exists.mp hq
    obtain ⟨a, c, ha, -, -⟩ := merge_quantity hq
    exact h.quantity (by rw [ha]; rfl)
  · intro ho
    have hhold := h.px_unknown ho
    rw [hhold] at hpx
    have hrow : row.px = none := not_isSome_iff_eq_none.mp (by rw [← hpx]; simp)
    show maxPrice hold.px row.px = none
    rw [hhold, hrow]
    rfl
  · intro p hp
    obtain ⟨hpos, highest, hhold, hle⟩ := h.px_le p hp
    refine ⟨hpos, ?_⟩
    show ∃ highest, maxPrice hold.px row.px = some highest ∧ p ≤ highest
    rw [hhold]
    cases row.px with
    | none => exact ⟨highest, rfl, hle⟩
    | some x => exact ⟨max highest x, rfl, hle.trans (le_max_left _ _)⟩
  · intro hpos
    obtain ⟨hhold, -, heq⟩ := merge_confirmed hpos
    obtain ⟨ho, hle⟩ := h.confirmed hhold
    rw [heq]
    exact ⟨ho, hle.trans (le_max_left _ _)⟩

/-- The two rows of a merged one may change places. -/
theorem merge_comm : MarginBook.merge hold row confirmedNs = MarginBook.merge ⟨row.quantity, row.px, confirmedNs⟩
    { row with quantity := hold.quantity, px := hold.px } hold.confirmedNs := by
  unfold MarginBook.merge
  congr 1
  · cases hold.quantity <;> cases row.quantity <;> simp [add_comm]
  · cases hold.px <;> cases row.px <;> simp [maxPrice, max_comm]
  · simp [or_comm, max_comm]

theorem absorbs_joined (h : Plain row.quantity row.px) (hpx : hold.px.isSome = row.px.isSome)
    (hq : o.quantity = row.quantity) (hp : o.px = row.px) (hc : o.confirmedNs = confirmedNs) :
    Absorbs (MarginBook.merge hold row confirmedNs) o := by
  have hself : Absorbs ⟨row.quantity, row.px, confirmedNs⟩ o := by
    rw [← hq, ← hp] at h ⊢
    rw [← hc]
    exact .self h
  rw [merge_comm]
  exact hself.merge hpx.symm

theorem StandsFor.merge (h : StandsFor hold os) (hrow : Plain row.quantity row.px)
    (hpx : hold.px.isSome = row.px.isSome) (hq : o.quantity = row.quantity) (hp : o.px = row.px)
    (hc : o.confirmedNs = confirmedNs) : StandsFor (MarginBook.merge hold row confirmedNs) (o :: os) := by
  refine ⟨?_, ?_⟩
  · intro other hother
    obtain rfl | hother := mem_cons.mp hother
    · exact absorbs_joined hrow hpx hq hp hc
    · exact (h.absorbs other hother).merge hpx
  · intro q hsum
    obtain ⟨a, c, ha, hc', rfl⟩ := merge_quantity hsum
    have hother := h.sum_le a ha
    have hjoined : amount o = c := by rw [amount, hq, hc']; rfl
    rw [map_cons, sum_cons, hjoined, add_comm]
    exact add_le_add_left hother c

end merge

/-! ## What a merged row requires -/

variable {ns : Nat} {leverage : Exact} {price : SymbolId → Option Exact} {symbol : SymbolId} {v : Exact}
  {px : Option Exact}

theorem part_ok {quantity : Option Exact} {y : Option (Exact × Exact)}
    (h : MarginBook.part leverage price symbol quantity px = .ok y) :
    ∃ q, quantity = some q ∧ 0 ≤ q ∧ ((q = 0 ∧ y = none) ∨
      (0 < q ∧ leverage ≠ 0 ∧ ∃ p, maxPrice px (price symbol) = some p ∧ 0 < p ∧ y = some (p, q))) := by
  simp only [part, ok_iff] at h
  obtain ⟨q, hq, hnonneg, h⟩ := h
  refine ⟨q, hq, hnonneg, ?_⟩
  split at h
  · next hzero => exact .inl ⟨hzero, (Except.ok.inj h).symm⟩
  · next hne =>
    simp only [ok_iff, filter_eq_some_iff, decide_eq_true_eq] at h
    obtain ⟨p, ⟨hp, hpos⟩, hlev, rfl⟩ := h
    exact .inr ⟨lt_of_le_of_ne hnonneg (Ne.symm hne), hlev, p, hp, hpos, rfl⟩

theorem part_of_zero : MarginBook.part leverage price symbol (some 0) px = .ok none := by
  simp [part, orError, require, bind, Except.bind]

theorem part_of_pos {q p : Exact} (hq : 0 < q) (hlev : leverage ≠ 0)
    (hp : maxPrice px (price symbol) = some p) (hpos : 0 < p) :
    MarginBook.part leverage price symbol (some q) px = .ok (some (p, q)) := by
  have hfilter : (some p).filter (fun x => 0 < x) = some p := by simp [hpos]
  simp [part, orError, require, bind, Except.bind, hq.le, hq.ne', hp, hfilter, hlev]

theorem Absorbs.maxPrice_le (h : Absorbs hold o) {x : Option Exact} {p : Exact}
    (hp : maxPrice hold.px x = some p) (hpos : 0 < p) :
    ∃ p', maxPrice o.px x = some p' ∧ 0 < p' ∧ p' ≤ p := by
  cases ho : o.px with
  | none =>
    rw [h.px_unknown ho] at hp
    exact ⟨p, hp, hpos, le_rfl⟩
  | some own =>
    obtain ⟨hown, highest, hhold, hle⟩ := h.px_le own ho
    rw [hhold] at hp
    cases x with
    | none =>
      cases hp
      exact ⟨own, rfl, hown, hle⟩
    | some y =>
      cases hp
      exact ⟨max own y, rfl, lt_max_of_lt_left hown, max_le_max hle le_rfl⟩

variable (ns leverage price) in
def HeldOrder.notional (o : HeldOrder) : Except String Exact :=
  rowNotional ns leverage price o.symbol o.quantity o.px o.confirmedNs

theorem Absorbs.rowNotional_le (h : Absorbs hold o) (hq : hold.quantity.isSome = true)
    (hpositive : 0 < amount o → leverage ≠ 0 ∧ maxPrice hold.px (price o.symbol) = some v) (hv : 0 < v) :
    ∃ x, o.notional ns leverage price = .ok x ∧ x ≤ amount o * v := by
  obtain ⟨q, hoq, hnonneg⟩ := h.quantity hq
  have hamount : amount o = q := by rw [amount, hoq]; rfl
  unfold HeldOrder.notional rowNotional
  split
  · exact ⟨0, rfl, by rw [hamount]; exact mul_nonneg hnonneg hv.le⟩
  · rcases hnonneg.eq_or_lt with hzero | hpos
    · rw [hoq, ← hzero, part_of_zero]
      exact ⟨0, rfl, by rw [hamount, ← hzero, zero_mul]⟩
    · obtain ⟨hlev, hp⟩ := hpositive (hamount ▸ hpos)
      obtain ⟨p', hp', hp'pos, hle⟩ := h.maxPrice_le hp hv
      rw [hoq, part_of_pos hpos hlev hp' hp'pos]
      exact ⟨q * p', rfl, by rw [hamount]; exact mul_le_mul_of_nonneg_left hle hnonneg⟩

theorem StandsFor.notional_le (h : StandsFor hold os) (hsymbol : ∀ o ∈ os, o.symbol = symbol)
    (hv : rowNotional ns leverage price symbol hold.quantity hold.px hold.confirmedNs = .ok v) :
    (∀ o ∈ os, ∃ x, o.notional ns leverage price = .ok x) ∧
    (os.map (fun o => valueOf (o.notional ns leverage price))).sum ≤ v := by
  -- a bound for each order, linear in its quantity
  have hbound : ∃ p, 0 ≤ p ∧ (os.map amount).sum * p ≤ v ∧ ∀ o ∈ os, ∃ x,
      o.notional ns leverage price = .ok x ∧ x ≤ amount o * p := by
    unfold rowNotional at hv
    split at hv
    · next hshown =>
      -- the query shows the whole hold, so it shows every order in it
      cases hv
      refine ⟨0, le_rfl, by simp, fun o ho => ⟨0, ?_, by simp⟩⟩
      obtain ⟨hpos, hle⟩ := (h.absorbs o ho).confirmed hshown.1
      exact if_pos ⟨hpos, hle.trans hshown.2⟩
    · obtain ⟨y, hy, rfl⟩ := map_eq_ok.mp hv
      obtain ⟨q, hq, hnonneg, hcase⟩ := part_ok hy
      have hsome : hold.quantity.isSome = true := by rw [hq]; rfl
      have hsum := h.sum_le q hq
      obtain ⟨rfl, rfl⟩ | ⟨hpos, hlev, p, hp, hppos, rfl⟩ := hcase
      · -- nothing is held, so nothing is held by any of them
        refine ⟨1, zero_le_one, by simpa using hsum, fun o ho => ?_⟩
        refine (h.absorbs o ho).rowNotional_le hsome (fun hpositive => ?_) one_pos
        have hle : amount o ≤ (os.map amount).sum := by
          apply single_le_sum
          · intro x hx
            obtain ⟨o', ho', rfl⟩ := mem_map.mp hx
            exact (h.absorbs o' ho').amount_nonneg hsome
          · exact mem_map_of_mem ho
        exact absurd (hpositive.trans_le (hle.trans hsum)) (lt_irrefl 0)
      · refine ⟨p, hppos.le, mul_le_mul_of_nonneg_right hsum hppos.le, fun o ho => ?_⟩
        exact (h.absorbs o ho).rowNotional_le hsome (fun _ => ⟨hlev, by rw [hsymbol o ho]; exact hp⟩) hppos
  obtain ⟨p, -, hsum, horders⟩ := hbound
  refine ⟨fun o ho => (horders o ho).imp (fun x hx => hx.1), le_trans ?_ hsum⟩
  rw [← sum_map_mul_right]
  apply sum_le_sum
  intro o ho
  obtain ⟨x, hx, hle⟩ := horders o ho
  rw [hx]
  exact hle

end hold

/-! ## A run -/

def PlainRows (active : ExtTreeMap String Reservation) : Prop :=
  ∀ (id : String) (row : Reservation), active[id]? = some row → Plain row.quantity row.px

variable {active : ExtTreeMap String Reservation} {id : String} {row : Reservation}

theorem PlainRows.insert (h : PlainRows active) (hrow : Plain row.quantity row.px) : PlainRows (active.insert id row) :=
  of_get_insert (fun other r _ => h other r) hrow

theorem PlainRows.erase (h : PlainRows active) (id : String) : PlainRows (active.erase id) :=
  fun other r hr => h other r (get_of_get_erase hr)

/-- The book and the ledger agree on what is active and on the frontier, and the book's retired rows stand
for all the orders the ledger still holds. -/
structure Covered (s : MarginBooks) : Prop where
  active : s.ledger.active = s.book.active
  frontier : s.ledger.frontierNs = s.book.frontierNs
  rows : PlainRows s.book.active
  kept : ∀ o ∈ s.ledger.retired, ∃ hold, s.book.retired[o.symbol]? = some hold
  holds : ∀ (symbol : SymbolId) (hold : Retired), s.book.retired[symbol]? = some hold →
    StandsFor hold (s.ledger.retired.filter (fun o => o.symbol = symbol))

section run
variable {s : MarginBooks}

theorem Covered.empty : Covered .empty := by
  refine ⟨rfl, rfl, ?_, ?_, ?_⟩
  · intro id row h
    simp [MarginBooks.empty, MarginBook.empty] at h
  · intro o ho
    cases ho
  · intro symbol hold h
    simp [MarginBooks.empty, MarginBook.empty] at h

theorem Covered.setActive (h : Covered s) (hrows : PlainRows active) (latestNs : String → Nat) :
    Covered ⟨{ s.book with active := active }, { s.ledger with active := active, latestNs := latestNs }⟩ :=
  ⟨rfl, h.frontier, hrows, h.kept, h.holds⟩

theorem Covered.modify (h : Covered s) (id : String) {change : Reservation → Reservation} (latestNs : String → Nat)
    (hchange : ∀ row, Plain row.quantity row.px → Plain (change row).quantity (change row).px) :
    Covered ⟨s.book.modify id change, { s.ledger with latestNs := latestNs }.modify id change⟩ := by
  simp only [MarginBook.modify, MarginLedger.modify, h.active]
  cases hrow : s.book.active[id]? with
  | none => exact ⟨rfl, h.frontier, h.rows, h.kept, h.holds⟩
  | some row => exact h.setActive (h.rows.insert (hchange row (h.rows id row hrow))) latestNs

variable {confirmedNs : Nat} {id : String}

theorem Covered.retire (h : Covered s)
    (ho : s.Orderly (.retire id confirmedNs)) : Covered (s.handle (.retire id confirmedNs)) := by
  simp only [MarginBooks.handle, MarginBook.handle, MarginBook.retire, MarginLedger.handle, MarginLedger.retire,
    h.active]
  cases hrow : s.book.active[id]? with
  | none => exact h
  | some row =>
    have hplain := h.rows id row hrow
    obtain ⟨-, hpx⟩ := ho row (by rw [h.active]; exact hrow)
    simp only [MarginLedger.finished, h.frontier]
    split
    · exact ⟨rfl, rfl, h.rows.erase id, h.kept, h.holds⟩
    · refine ⟨rfl, rfl, h.rows.erase id, ?_, ?_⟩
      · intro o ho
        by_cases hs : o.symbol = row.symbol
        · exact ⟨_, by rw [hs]; exact get_insert_self⟩
        · obtain rfl | ho := mem_cons.mp ho
          · exact absurd rfl hs
          · obtain ⟨hold, hhold⟩ := h.kept o ho
            exact ⟨hold, by rw [get_insert_of_ne hs]; exact hhold⟩
      · intro symbol hold hhold
        by_cases hs : symbol = row.symbol
        · obtain rfl := hs
          rw [get_insert_self] at hhold
          rw [filter_cons_of_pos (by simp)]
          cases hold' : s.book.retired[row.symbol]? with
          | none =>
            -- the first of its symbol: no order of it is held yet
            rw [hold'] at hhold
            cases hhold
            have hnone : s.ledger.retired.filter (fun o => o.symbol = row.symbol) = [] := by
              rw [filter_eq_nil_iff]
              intro o ho hsymbol
              obtain ⟨hold, hget⟩ := h.kept o ho
              rw [show o.symbol = row.symbol by simpa using hsymbol, hold'] at hget
              cases hget
            rw [hnone]
            exact StandsFor.first (o := ⟨id, row.symbol, row.quantity, row.px, max confirmedNs row.phase.earlier, _⟩)
              hplain
          | some old =>
            rw [hold'] at hhold
            cases hhold
            exact (h.holds row.symbol old hold').merge hplain (hpx old hold') rfl rfl rfl
        · rw [get_insert_of_ne hs] at hhold
          rw [filter_cons_of_neg (by simpa using Ne.symm hs)]
          exact h.holds symbol hold hhold

theorem Covered.observe (h : Covered s) (ns : Nat) : Covered (s.handle (.observe ns)) := by
  simp only [MarginBooks.handle, MarginBook.handle, MarginBook.observe, MarginLedger.handle, MarginLedger.observe,
    h.frontier]
  refine ⟨h.active, rfl, h.rows, ?_, ?_⟩
  · intro o ho
    obtain ⟨ho, hshown⟩ := mem_filter.mp ho
    obtain ⟨hold, hhold⟩ := h.kept o ho
    refine ⟨hold, ?_⟩
    rw [ExtTreeMap.getElem?_filter', hhold, filter_eq_some_iff]
    refine ⟨rfl, ?_⟩
    have habsorbs := (h.holds o.symbol hold hhold).absorbs o (mem_filter.mpr ⟨ho, by simp⟩)
    rw [decide_eq_true_eq]
    by_cases hzero : hold.confirmedNs = 0
    · exact .inl hzero
    · -- an order the query does not show was confirmed after it, and the hold no earlier
      right
      obtain ⟨hpos, hle⟩ := habsorbs.confirmed (Nat.pos_of_ne_zero hzero)
      have hafter : ¬ Shown (max s.book.frontierNs ns) o.confirmedNs := by simpa using hshown
      unfold Shown at hafter
      omega
  · intro symbol hold hhold
    rw [ExtTreeMap.getElem?_filter', filter_eq_some_iff] at hhold
    refine (h.holds symbol hold hhold.1).sublist ?_
    exact filter_sublist.filter _

/-- **Every orderly event keeps the cover.** -/
theorem Covered.handle {event : MarginEvent} (h : Covered s) (ho : s.Orderly event) : Covered (s.handle event) := by
  cases event with
  | register id symbol quantity px =>
    have hrows : PlainRows (s.book.active.insert id ⟨symbol, quantity, px, .queued⟩) := h.rows.insert ⟨ho.1, ho.2⟩
    simp only [MarginBooks.handle, MarginLedger.handle, h.active]
    exact h.setActive hrows _
  | setQuantity id quantity => exact h.modify id s.ledger.latestNs fun row hrow => ⟨ho, hrow.px⟩
  | attempted id => exact h.modify id s.ledger.latestNs fun row hrow => ⟨hrow.quantity, hrow.px⟩
  | accepted id confirmedNs =>
    simp only [MarginBooks.handle, MarginBook.handle, MarginBook.accepted, MarginLedger.handle, h.active]
    cases hrow : s.book.active[id]? with
    | none =>
      rw [MarginBook.modify, hrow]
      exact h
    | some row => exact h.modify id _ fun row hrow => ⟨hrow.quantity, hrow.px⟩
  | retire id confirmedNs => exact h.retire ho
  | observe ns => exact h.observe ns

theorem MarginBooks.OrderlyRun.invariant {P : MarginBooks → Prop} {events : List MarginEvent}
    (hstep : ∀ {s event}, P s → s.Orderly event → P (s.handle event)) (ho : s.OrderlyRun events) (h : P s) :
    P (s.run events) := by
  induction events generalizing s with
  | nil => exact h
  | cons event events ih => exact ih ho.2 (hstep h ho.1)

end run

/-! ## What is required -/

section required
variable {s : MarginBooks} {ns confirmedNs : Nat} {leverage m : Exact} {price : SymbolId → Option Exact}

theorem rowNotional_nonneg {symbol : SymbolId} {quantity px : Option Exact} {v : Exact}
    (h : rowNotional ns leverage price symbol quantity px confirmedNs = .ok v) : 0 ≤ v := by
  unfold rowNotional at h
  split at h
  · cases h
    exact le_rfl
  · obtain ⟨y, hy, rfl⟩ := map_eq_ok.mp h
    obtain ⟨q, -, hq, ⟨-, rfl⟩ | ⟨-, -, p, -, hp, rfl⟩⟩ := part_ok hy
    · exact le_rfl
    · exact mul_nonneg hq hp.le

theorem sum_nonneg_of_ok {α : Type} {f : α → Except String Exact} {l : List α} {t : Exact}
    (hf : ∀ x v, f x = .ok v → 0 ≤ v) (h : sumOk f l = .ok t) : 0 ≤ t := by
  obtain ⟨hrows, rfl⟩ := sumOk_eq_ok.mp h
  apply sum_nonneg
  intro v hv
  obtain ⟨x, hx, rfl⟩ := mem_map.mp hv
  exact hf x _ (hrows x hx)

theorem sumOk_rowNotional {α : Type} (symbol : α → SymbolId) (quantity px : α → Option Exact) (confirmedNs : α → Nat)
    {l : List α} {parts : List (Exact × Exact)}
    (h : collect (fun x => if 0 < confirmedNs x ∧ confirmedNs x ≤ ns then .ok none
      else MarginBook.part leverage price (symbol x) (quantity x) (px x)) l = .ok parts) :
    sumOk (fun x => rowNotional ns leverage price (symbol x) (quantity x) (px x) (confirmedNs x)) l =
      .ok (parts.map (fun p => p.2 * p.1)).sum := by
  have hsum := map_sum_collect (fun x => if 0 < confirmedNs x ∧ confirmedNs x ≤ ns then .ok none
    else part leverage price (symbol x) (quantity x) (px x)) (fun p : Exact × Exact => p.2 * p.1) l
  rw [h] at hsum
  refine Eq.trans (congrArg (sumOk · l) (funext fun x => ?_)) hsum.symm
  unfold rowNotional
  by_cases hshown : Shown ns (confirmedNs x)
  · rw [if_pos hshown, if_pos (And.intro hshown.1 hshown.2)]
    rfl
  · rw [if_neg hshown, if_neg (show ¬ (_ ∧ _) from hshown)]

theorem required_ok {book : MarginBook} (h : book.required ns leverage price = .ok m) :
    book.frontierNs ≤ ns ∧ ∃ active retired,
      sumOk (fun row : String × Reservation => rowNotional ns leverage price row.2.symbol row.2.quantity row.2.px
        row.2.phase.earlier) book.active.toList = .ok active ∧
      sumOk (fun row : SymbolId × Retired => rowNotional ns leverage price row.1 row.2.quantity row.2.px
        row.2.confirmedNs) book.retired.toList = .ok retired ∧
      margin (active + retired) leverage = .ok m := by
  simp only [required, ok_iff] at h
  obtain ⟨hfrontier, active, hactive, retired, hretired, hm⟩ := h
  refine ⟨hfrontier, _, _, sumOk_rowNotional _ _ _ (fun row : String × Reservation => row.2.phase.earlier) hactive,
    sumOk_rowNotional _ _ _ (fun row : SymbolId × Retired => row.2.confirmedNs) hretired, ?_⟩
  have htotal : ((group compare (active ++ retired)).toList.map (fun row => row.2 * row.1)).sum =
      (active.map (fun p => p.2 * p.1)).sum + (retired.map (fun p => p.2 * p.1)).sum := by
    have hgroup := totalOver_group compare (fun px : Exact => AddMonoidHom.mulRight px) (active ++ retired)
    rw [totalOver, totalOver, map_append, sum_append] at hgroup
    exact hgroup
  rw [htotal] at hm
  exact hm

theorem margin_le {smaller total : Exact} (hsmall : 0 ≤ smaller) (hle : smaller ≤ total) (hlev : 0 ≤ leverage)
    (h : margin total leverage = .ok m) : ∃ m', margin smaller leverage = .ok m' ∧ m' ≤ m := by
  unfold margin at h ⊢
  split at h
  · next hzero =>
    cases h
    have hboth : smaller = 0 := le_antisymm (hzero ▸ hle) hsmall
    exact ⟨smaller, if_pos hboth, hle⟩
  · simp only [mapError_eq_ok, checkedDiv] at h
    split at h
    · cases h
    · next hne =>
      cases h
      split
      · next hzero => exact ⟨smaller, rfl, hzero ▸ div_nonneg (hsmall.trans hle) hlev⟩
      · refine ⟨smaller / leverage, ?_, div_le_div_of_nonneg_right hle hlev⟩
        rw [checkedDiv, if_neg hne]
        rfl

/-- **The book requires at least what the ledger requires**, and a query the ledger refuses, the book refuses. -/
theorem Covered.required_le (h : Covered s) (hlev : 0 ≤ leverage) (hm : s.book.required ns leverage price = .ok m) :
    ∃ m', s.ledger.required ns leverage price = .ok m' ∧ m' ≤ m := by
  obtain ⟨hfrontier, active, retired, hactive, hretired, hm⟩ := required_ok hm
  have hrows := (sumOk_eq_ok.mp hretired).1
  -- the orders of each symbol against the symbol's hold
  have hfibre (symbol : SymbolId) (hold : Retired) (hmem : (symbol, hold) ∈ s.book.retired.toList) :=
    (h.holds symbol hold (ExtTreeMap.mem_toList_iff_getElem?_eq_some.mp hmem)).notional_le
      (fun o ho => by simpa using (mem_filter.mp ho).2) (hrows (symbol, hold) hmem)
  have hsum : sumOk (HeldOrder.notional ns leverage price)
      s.ledger.retired = .ok (s.ledger.retired.map (fun o =>
        valueOf (o.notional ns leverage price))).sum := by
    refine sumOk_eq_ok.mpr ⟨fun o ho => ?_, rfl⟩
    obtain ⟨hold, hhold⟩ := h.kept o ho
    obtain ⟨x, hx⟩ := (hfibre o.symbol hold (ExtTreeMap.mem_toList_iff_getElem?_eq_some.mpr hhold)).1 o
      (mem_filter.mpr ⟨ho, by simp⟩)
    rw [hx]
    rfl
  have hle : (s.ledger.retired.map (fun o =>
      valueOf (o.notional ns leverage price))).sum ≤ retired := by
    rw [(sumOk_eq_ok.mp hretired).2]
    apply sum_le_sum_fibres HeldOrder.symbol
    · rw [ExtTreeMap.map_fst_toList_eq_keys]
      exact ExtTreeMap.nodup_keys
    · intro o ho
      obtain ⟨hold, hhold⟩ := h.kept o ho
      exact mem_map.mpr ⟨(o.symbol, hold), ExtTreeMap.mem_toList_iff_getElem?_eq_some.mpr hhold, rfl⟩
    · intro row hrow
      exact (hfibre row.1 row.2 hrow).2
  have hnonneg : 0 ≤ active := sum_nonneg_of_ok (fun _ _ => rowNotional_nonneg) hactive
  obtain ⟨m', hm', hlem⟩ := margin_le
    (add_nonneg hnonneg (sum_nonneg_of_ok (fun _ _ => rowNotional_nonneg) hsum)) (add_le_add_right hle active) hlev hm
  refine ⟨m', ?_, hlem⟩
  simp only [MarginLedger.required, ok_iff, h.frontier, h.active]
  exact ⟨hfrontier, active, hactive, _, hsum, hm'⟩

end required

/-! ## What is released -/

/-- The time a row is released by is the latest confirmation recorded for its order. -/
structure Tracked (l : MarginLedger) : Prop where
  active : ∀ (id : String) (row : Reservation), l.active[id]? = some row → 0 < row.phase.earlier →
    Shown row.phase.earlier (l.latestNs id)
  finished : ∀ o ∈ l.retired ++ l.released, 0 < o.confirmedNs → Shown o.confirmedNs o.latestNs
  released : ∀ o ∈ l.released, Shown l.frontierNs o.confirmedNs

section released
variable {s : MarginBooks} {l : MarginLedger} {id : String} {confirmedNs : Nat}

theorem shown_of_inOrder {row : Reservation} (hactive : 0 < row.phase.earlier → Shown row.phase.earlier (l.latestNs id))
    (ho : MarginBooks.InOrder l id row confirmedNs) (hpos : 0 < max confirmedNs row.phase.earlier) :
    Shown (max confirmedNs row.phase.earlier) (max (l.latestNs id) confirmedNs) := by
  unfold MarginBooks.InOrder at ho
  unfold Shown at hactive ⊢
  omega

theorem Tracked.empty : Tracked .empty := by
  refine ⟨?_, ?_, ?_⟩
  · intro id row h
    simp [MarginLedger.empty] at h
  · intro o ho
    cases ho
  · intro o ho
    cases ho

theorem Tracked.insert (h : Tracked l) {row : Reservation} {latestNs : String → Nat}
    (hrow : 0 < row.phase.earlier → Shown row.phase.earlier (latestNs id))
    (hothers : ∀ other, other ≠ id → latestNs other = l.latestNs other) :
    Tracked { l with active := l.active.insert id row, latestNs := latestNs } := by
  refine ⟨of_get_insert (fun other r hne hr => ?_) hrow, h.finished, h.released⟩
  show 0 < r.phase.earlier → Shown r.phase.earlier (latestNs other)
  rw [hothers other hne]
  exact h.active other r hr

theorem Tracked.modify (h : Tracked l) (id : String) {change : Reservation → Reservation}
    (hchange : ∀ row, (change row).phase.earlier = 0 ∨ (change row).phase.earlier = row.phase.earlier) :
    Tracked (l.modify id change) := by
  unfold MarginLedger.modify
  split
  · next row hrow =>
    refine h.insert (fun hpos => ?_) fun _ _ => rfl
    obtain hzero | hsame := hchange row
    · omega
    · rw [hsame] at hpos ⊢
      exact h.active id row hrow hpos
  · exact h

theorem Tracked.retire (h : Tracked s.ledger)
    (ho : s.Orderly (.retire id confirmedNs)) : Tracked (s.ledger.retire id confirmedNs) := by
  unfold MarginLedger.retire
  split
  · exact h
  · next row hrow =>
    have hkept (other : String) (r : Reservation) (hr : (s.ledger.active.erase id)[other]? = some r) :=
      h.active other r (get_of_get_erase hr)
    have horder : 0 < (s.ledger.finished id row confirmedNs).confirmedNs →
        Shown (s.ledger.finished id row confirmedNs).confirmedNs (s.ledger.finished id row confirmedNs).latestNs :=
      shown_of_inOrder (h.active id row hrow) (ho row hrow).1
    dsimp only
    split
    · next hshown =>
      refine ⟨hkept, ?_, ?_⟩
      · intro o ho
        obtain ho | ho := mem_append.mp ho
        · exact h.finished o (mem_append_left _ ho)
        · obtain rfl | ho := mem_cons.mp ho
          · exact horder
          · exact h.finished o (mem_append_right _ ho)
      · intro o ho
        obtain rfl | ho := mem_cons.mp ho
        · exact hshown
        · exact h.released o ho
    · refine ⟨hkept, ?_, h.released⟩
      intro o ho
      rw [cons_append] at ho
      obtain rfl | ho := mem_cons.mp ho
      · exact horder
      · exact h.finished o ho

theorem Tracked.observe (h : Tracked l) (ns : Nat) : Tracked (l.observe ns) := by
  refine ⟨h.active, ?_, ?_⟩
  · intro o ho
    apply h.finished o
    simp only [MarginLedger.observe, mem_append, mem_filter] at ho ⊢
    tauto
  · intro o ho
    obtain ho | ho := mem_append.mp ho
    · exact of_decide_eq_true (mem_filter.mp ho).2
    · obtain ⟨hpos, hle⟩ := h.released o ho
      exact ⟨hpos, hle.trans (le_max_left _ _)⟩

theorem Tracked.handle {event : MarginEvent} (h : Tracked s.ledger) (ho : s.Orderly event) :
    Tracked (s.handle event).ledger := by
  cases event with
  | register id symbol quantity px =>
    refine h.insert (fun hpos => absurd hpos (lt_irrefl 0)) fun other hne => ?_
    exact if_neg hne
  | setQuantity id quantity => exact h.modify id fun row => .inr rfl
  | attempted id => exact h.modify id fun row => .inl rfl
  | accepted id confirmedNs =>
    show Tracked (s.ledger.handle (.accepted id confirmedNs))
    cases hrow : s.ledger.active[id]? with
    | none =>
      simp only [MarginLedger.handle, hrow]
      exact h
    | some row =>
      simp only [MarginLedger.handle, hrow, MarginLedger.modify, MarginLedger.confirm]
      refine h.insert (fun hpos => ?_) fun other hne => if_neg hne
      rw [if_pos rfl]
      exact shown_of_inOrder (h.active id row hrow) (ho row hrow) hpos
  | retire id confirmedNs => exact h.retire ho
  | observe ns => exact h.observe ns

theorem MarginLedger.modify_frontier (l : MarginLedger) (id : String) (change : Reservation → Reservation) :
    (l.modify id change).frontierNs = l.frontierNs := by
  unfold MarginLedger.modify
  split <;> rfl

theorem frontier_observed (s : MarginBooks) (events : List MarginEvent) :
    (s.run events).ledger.frontierNs = s.ledger.frontierNs ∨
    .observe (s.run events).ledger.frontierNs ∈ events := by
  induction events generalizing s with
  | nil => exact .inl rfl
  | cons event events ih =>
    obtain hsame | hlater := ih (s.handle event)
    · change (s.run (event :: events)).ledger.frontierNs = _ at hsame
      rw [hsame]
      cases event with
      | observe ns =>
        show max s.ledger.frontierNs ns = _ ∨ MarginEvent.observe (max s.ledger.frontierNs ns) ∈ _
        rcases max_choice s.ledger.frontierNs ns with hmax | hmax
        · exact .inl hmax
        · rw [hmax]
          exact .inr mem_cons_self
      | retire id confirmedNs =>
        left
        simp only [MarginBooks.handle, MarginLedger.handle, MarginLedger.retire]
        split
        · rfl
        · split <;> rfl
      | accepted id confirmedNs =>
        left
        simp only [MarginBooks.handle, MarginLedger.handle]
        split
        · exact MarginLedger.modify_frontier _ id _
        · rfl
      | register id symbol quantity px => exact .inl rfl
      | setQuantity id quantity => exact .inl (s.ledger.modify_frontier id _)
      | attempted id => exact .inl (s.ledger.modify_frontier id _)
    · exact .inr (mem_cons_of_mem event hlater)

end released

/-- **Margin holds are conservative.** After any orderly events the book requires at least what a ledger
with a row for every retired order requires, and refuses wherever that does; an order a query does not
count has its latest confirmation at or before it; and one whose row is gone was released by an account
query at or after its latest confirmation. -/
theorem margin_holds_conservative {events : List MarginEvent} (h : MarginBooks.empty.OrderlyRun events) (ns : Nat)
    {leverage : Exact} (hlev : 0 ≤ leverage) (price : SymbolId → Option Exact) :
    (∀ m, (MarginBooks.empty.run events).book.required ns leverage price = .ok m →
      ∃ m', (MarginBooks.empty.run events).ledger.required ns leverage price = .ok m' ∧ m' ≤ m) ∧
    (∀ e, (MarginBooks.empty.run events).ledger.required ns leverage price = .error e →
      ∃ e', (MarginBooks.empty.run events).book.required ns leverage price = .error e') ∧
    (∀ (id : String) (row : Reservation), (MarginBooks.empty.run events).ledger.active[id]? = some row →
      Shown ns row.phase.earlier → Shown ns ((MarginBooks.empty.run events).ledger.latestNs id)) ∧
    (∀ o ∈ (MarginBooks.empty.run events).ledger.retired, Shown ns o.confirmedNs → Shown ns o.latestNs) ∧
    ∀ o ∈ (MarginBooks.empty.run events).ledger.released, ∃ query, .observe query ∈ events ∧
      Shown query o.latestNs := by
  have hcovered := h.invariant Covered.handle Covered.empty
  have htracked : Tracked (MarginBooks.empty.run events).ledger := h.invariant Tracked.handle Tracked.empty
  refine ⟨fun m hm => hcovered.required_le hlev hm, ?_, ?_, ?_, ?_⟩
  · intro e he
    cases hm : (MarginBooks.empty.run events).book.required ns leverage price with
    | error e' => exact ⟨e', rfl⟩
    | ok m =>
      obtain ⟨m', hm', -⟩ := hcovered.required_le hlev hm
      rw [he] at hm'
      cases hm'
  · intro id row hrow hshown
    exact hshown.trans (htracked.active id row hrow)
  · intro o ho hshown
    exact hshown.trans (htracked.finished o (mem_append_left _ ho))
  · intro o ho
    have hshown := htracked.released o ho
    refine ⟨_, ?_, hshown.trans (htracked.finished o (mem_append_right _ ho))⟩
    -- something was released, so the frontier has moved
    obtain hstart | hobserved := frontier_observed .empty events
    · rw [hstart] at hshown
      obtain ⟨hc, hz⟩ := hshown
      exact absurd (hc.trans_le hz) (lt_irrefl 0)
    · exact hobserved

/-- Two orders of a symbol, one confirmed, retired into one hold. -/
def twoRetired : List MarginEvent :=
  [.register "a" 0 (some 1) (some 100), .register "b" 0 (some 2) (some 90), .accepted "a" 5, .retire "a" 7,
    .retire "b" 9, .observe 8]

/-- The hold of both counts 300 for the 180 of the order the query does not show. -/
theorem margin_holds_twoRetired : (∀ m, (MarginBooks.empty.run twoRetired).book.required 8 1 (fun _ => none) = .ok m →
      ∃ m', (MarginBooks.empty.run twoRetired).ledger.required 8 1 (fun _ => none) = .ok m' ∧ m' ≤ m) ∧
    (MarginBooks.empty.run twoRetired).book.required 8 1 (fun _ => none) = .ok 300 ∧
    (MarginBooks.empty.run twoRetired).ledger.required 8 1 (fun _ => none) = .ok 180 :=
  ⟨(margin_holds_conservative (by decide +kernel) 8 (by decide) (fun _ => none)).1, by decide +kernel,
    by decide +kernel⟩

/-- Two orders of one symbol, a limit order and one registered without a price, both retired unconfirmed. -/
def unpricedJoins : List MarginEvent :=
  [.register "a" 0 (some 1) (some 100), .register "b" 0 (some 1) none, .retire "a" 0, .retire "b" 0]

/-- An order confirmed at 100, attempted again, and finished with a confirmation of 50. -/
def olderConfirmation : List MarginEvent :=
  [.register "a" 0 (some 1) (some 100), .accepted "a" 100, .attempted "a", .retire "a" 50, .observe 60]

/-- A query that the ledger refuses for want of a price is answered by the book; one that the ledger refuses
for an unreadable quantity is answered too; and an order whose latest confirmation is 100 is released by an
account query at 60. -/
theorem unknown_price_is_priced : ((MarginBooks.empty.run unpricedJoins).ledger.required 0 1 (fun _ => none) =
        .error "no price for unreflected order margin" ∧
      (MarginBooks.empty.run unpricedJoins).book.required 0 1 (fun _ => none) = .ok 200) ∧
    ((MarginBooks.empty.run [.register "a" 0 (some 2) (some 100), .register "b" 0 (some (-1)) (some 100), .retire "a" 0,
        .retire "b" 0]).ledger.required 0 1 (fun _ => none) = .error "an order's margin quantity is unreadable" ∧
      (MarginBooks.empty.run [.register "a" 0 (some 2) (some 100), .register "b" 0 (some (-1)) (some 100),
        .retire "a" 0,
        .retire "b" 0]).book.required 0 1 (fun _ => none) = .ok 100) ∧
    (MarginBooks.empty.run olderConfirmation).ledger.released = [⟨"a", 0, some 1, some 100, 50, 100⟩] ∧
    (MarginBooks.empty.run olderConfirmation).book.required 60 1 (fun _ => none) = .ok 0 := by
  decide +kernel

end LiquidityMigration.Risk
